/-! Where bytes come from: what successive reads of an input meet, in parts. A read never goes beyond
its part, so an input that pauses or fails does so between parts. -/
namespace ChangeCapture

inductive SourcePart where
  | bytes (content : List UInt8)
  /-- The input ends for now. -/
  | pause
  /-- A read that is to be tried again. -/
  | interrupted
  | failure (message : String)
deriving DecidableEq, Repr

/-- After the last part the input has ended. -/
abbrev Source := List SourcePart

namespace Source

/-- Everything that reads can take out of a source, and every one of its parts, counts. -/
def size : Source → Nat
  | [] => 0
  | .bytes content :: rest => content.length + 1 + size rest
  | _ :: rest => size rest + 1

/-- Bytes not taken yet. -/
def content : Source → List UInt8
  | [] => []
  | .bytes bytes :: rest => bytes ++ content rest
  | _ :: rest => content rest

/-- Reads on until `count` bytes are there or the input ends for now. A failing read loses the bytes
that were already taken. -/
def gather : Nat → Source → Except String (List UInt8) × Source
  | 0, s => (.ok [], s)
  | _ + 1, [] => (.ok [], [])
  | _ + 1, .pause :: rest => (.ok [], rest)
  | n + 1, .interrupted :: rest => gather (n + 1) rest
  | _ + 1, .failure message :: rest => (.error message, rest)
  | n + 1, .bytes bytes :: rest =>
    if bytes.length ≤ n + 1 then
      let (more, rest) := gather (n + 1 - bytes.length) rest
      (more.map (bytes ++ ·), rest)
    else (.ok (bytes.take (n + 1)), .bytes (bytes.drop (n + 1)) :: rest)

theorem size_gather_le (n : Nat) (s : Source) : size (gather n s).2 ≤ size s := by
  fun_induction gather n s with
  | case1 => exact Nat.le_refl _
  | case2 => exact Nat.le_refl _
  | case3 => simp [size]
  | case4 n rest ih => simp only [size]; omega
  | case5 => simp [size]
  | case6 n bytes rest h more rest' hr ih =>
    rw [hr] at ih
    simp only [size] at ih ⊢
    omega
  | case7 n bytes rest h => simp [size]

theorem length_gather_le (n : Nat) (s : Source) (bytes : List UInt8)
    (h : (gather n s).1 = .ok bytes) : bytes.length ≤ n := by
  fun_induction gather n s generalizing bytes with
  | case1 => cases h; simp
  | case2 => cases h; simp
  | case3 => cases h; simp
  | case4 n rest ih => exact ih _ h
  | case5 => cases h
  | case6 n first rest hl more rest' hr ih =>
    cases more with
    | error e => cases h
    | ok more =>
      rw [hr] at ih
      simp only [Except.map, Except.ok.injEq] at h
      subst h
      have := ih more rfl
      simp only [List.length_append]
      omega
  | case7 n first rest hl =>
    cases h
    simp only [List.length_take]
    omega

/-- Bytes that were taken are gone from the source. -/
theorem size_gather_add (n : Nat) (s : Source) (bytes : List UInt8)
    (h : (gather n s).1 = .ok bytes) : size (gather n s).2 + bytes.length ≤ size s := by
  fun_induction gather n s generalizing bytes with
  | case1 => cases h; simp
  | case2 => cases h; simp
  | case3 => cases h; simp [size]
  | case4 n rest ih => have := ih _ h; simp only [size]; omega
  | case5 => cases h
  | case6 n first rest hl more rest' hr ih =>
    cases more with
    | error e => cases h
    | ok more =>
      rw [hr] at ih
      simp only [Except.map, Except.ok.injEq] at h
      subst h
      have := ih more rfl
      simp only [size, List.length_append]
      simp only at this
      omega
  | case7 n first rest hl =>
    cases h
    simp only [size, List.length_drop, List.length_take]
    omega

end Source

end ChangeCapture

import ChangeCapture.Catalog
import ChangeCapture.Parts

/-! What a stream carries from one file to the next. The summaries of open transactions are not part
of it: all continuations of a cache share them. -/
namespace ChangeCapture

structure Cache where
  catalog : Catalog
  parts : Parts
  /-- The transaction of the last entry that had one. -/
  currentTransaction : Option String
deriving DecidableEq, Repr

namespace Cache

def empty : Cache := ⟨.empty, ∅, none⟩

/-- Forgets tables and held records, and keeps the transaction. -/
def clear (c : Cache) : Cache := { c with catalog := .empty, parts := ∅ }

/-- Takes over what an included file has learned, whose cache began as a copy of this one. -/
def mergeBack (c nested : Cache) : Cache := { nested with catalog := c.catalog.merge nested.catalog }

/-- Offers a change record to the records that are held. -/
def offer (c : Cache) (offset : StreamOffset) (r : ChangeRecord) :
    Cache × Except Failure (Offered ChangeRecord) :=
  let (parts, offered) := c.parts.offer (c.catalog.dictionary.get? r.header.tableId) offset r
  ({ c with parts }, offered)

end Cache

end ChangeCapture

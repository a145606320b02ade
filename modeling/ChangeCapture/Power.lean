/-! Powers of numbers are meant as the numbers define them, also where monoids are in scope that bring
powers of their own. -/

attribute [instance (20000), default_instance 20000] instPowNat

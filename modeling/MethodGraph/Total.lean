/-!
  The total of a list of numbers.
-/

namespace MethodGraph

/-- All numbers of a list added up. -/
def total (ns : List Nat) : Nat := ns.foldr (· + ·) 0

@[simp] theorem total_nil : total [] = 0 := rfl

@[simp] theorem total_cons (n : Nat) (ns : List Nat) : total (n :: ns) = n + total ns := rfl

end MethodGraph

/-!
# Steps that change a state

A step may change a state and may fail; what it has changed before it fails
stays changed. The lemmas here carry out a chain of such steps one at a time.
-/

namespace Lossless

/-- A step that changes a state and may fail. -/
abbrev Stateful (ε σ α : Type) := ExceptT ε (StateM σ) α

namespace Stateful

variable {ε σ α β : Type}

theorem bind_of_ok {x : Stateful ε σ α} {a : α} {s s' : σ}
    (h : x s = (.ok a, s')) (f : α → Stateful ε σ β) :
    (x >>= f) s = f a s' := by
  simp only [bind, ExceptT.bind, ExceptT.mk, StateT.bind, h, ExceptT.bindCont]

theorem bind_of_error {x : Stateful ε σ α} {e : ε} {s s' : σ}
    (h : x s = (.error e, s')) (f : α → Stateful ε σ β) :
    (x >>= f) s = (.error e, s') := by
  simp only [bind, ExceptT.bind, ExceptT.mk, StateT.bind, h, ExceptT.bindCont]
  rfl

end Stateful

end Lossless

import Mathlib.Logic.Basic

/-!
# What a graph reaches

The nodes that can be got to from some of them along the edges: the least set that
holds these and is closed under the edges.
-/

variable {α : Type*}

/-- Reached from a start along the edges. -/
inductive Reaching (start : α → Prop) (edge : α → α → Prop) : α → Prop
  | start {a : α} : start a → Reaching start edge a
  | edge {a b : α} : Reaching start edge a → edge a b → Reaching start edge b

namespace Reaching

variable {start start' : α → Prop} {edge edge' : α → α → Prop}

theorem closed {P : α → Prop} (hstart : ∀ a, start a → P a)
    (hedge : ∀ a b, P a → edge a b → P b) {a : α} (ha : Reaching start edge a) : P a := by
  induction ha with
  | start ha => exact hstart _ ha
  | edge _ hab ih => exact hedge _ _ ih hab

theorem mono (hstart : ∀ a, start a → start' a) (hedge : ∀ a b, edge a b → edge' a b) {a : α}
    (ha : Reaching start edge a) : Reaching start' edge' a :=
  ha.closed (fun a ha => .start (hstart a ha)) fun _ _ ha hab => ha.edge (hedge _ _ hab)

end Reaching

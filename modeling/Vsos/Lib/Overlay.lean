import Mathlib.Data.List.Nodup
import Mathlib.Tactic.Ring

/-!
# A function after a list of writes

Each write gives a new value to one argument, and later writes win. An argument that no write
names keeps its value, so a value that was not there before was written.
-/

namespace Vsos.Lib

variable {α β : Type} [DecidableEq α]

/-- The function after the writes. -/
def overlay (f : α → β) (ws : List (α × β)) : α → β :=
  ws.foldl (fun f w => Function.update f w.1 w.2) f

/-- Writes one after the other. -/
theorem overlay_append (f : α → β) (ws ws' : List (α × β)) :
    overlay f (ws ++ ws') = overlay (overlay f ws) ws' := List.foldl_append

/-- The first write comes first. -/
theorem overlay_cons (f : α → β) (w : α × β) (ws : List (α × β)) :
    overlay f (w :: ws) = overlay (Function.update f w.1 w.2) ws := rfl

/-- The value at an argument depends on the old value there. -/
theorem overlay_congr {f g : α → β} {a : α} (h : f a = g a) (ws : List (α × β)) :
    overlay f ws a = overlay g ws a := by
  induction ws generalizing f g with
  | nil => exact h
  | cons w ws ih =>
    rw [overlay_cons, overlay_cons]
    apply ih
    rw [Function.update_apply, Function.update_apply, h]

section

variable (f : α → β)
include f

/-- Other arguments keep their values. -/
theorem overlay_of_not_mem {ws : List (α × β)} {a : α} (h : a ∉ ws.map Prod.fst) :
    overlay f ws a = f a := by
  induction ws generalizing f with
  | nil => rfl
  | cons w ws ih =>
    obtain ⟨hne, hrest⟩ := not_or.mp (fun hmem => h (List.mem_cons.mpr hmem))
    rw [overlay_cons, ih _ hrest, Function.update_of_ne hne]

/-- A value was written or was there before. -/
theorem mem_of_overlay (ws : List (α × β)) (a : α) :
    (a, overlay f ws a) ∈ ws ∨ overlay f ws a = f a := by
  induction ws generalizing f with
  | nil => exact Or.inr rfl
  | cons w ws ih =>
    rw [overlay_cons]
    rcases ih (Function.update f w.1 w.2) with hmem | heq
    · exact Or.inl (List.mem_cons_of_mem _ hmem)
    · rw [heq, Function.update_apply]
      split
      · next ha =>
        subst ha
        exact Or.inl List.mem_cons_self
      · exact Or.inr rfl

/-- Writes to different arguments all show. -/
theorem overlay_of_mem {ws : List (α × β)} (hnodup : (ws.map Prod.fst).Nodup) {a : α} {b : β}
    (h : (a, b) ∈ ws) : overlay f ws a = b := by
  induction ws generalizing f with
  | nil => cases h
  | cons w ws ih =>
    obtain ⟨hnotin, hnodup⟩ := List.nodup_cons.mp hnodup
    rw [overlay_cons]
    rcases List.mem_cons.mp h with rfl | h
    · rw [overlay_of_not_mem _ hnotin, Function.update_self]
    · exact ih _ hnodup h

/-- Writes to the different arguments of a list all show. -/
theorem overlay_zip {as : List α} {bs : List β} (hnodup : as.Nodup) (hle : as.length ≤ bs.length)
    {k : ℕ} {a : α} {b : β} (ha : as[k]? = some a) (hb : bs[k]? = some b) :
    overlay f (as.zip bs) a = b := by
  apply overlay_of_mem
  · rwa [List.map_fst_zip hle]
  · exact List.mem_of_getElem? (List.getElem?_zip_eq_some.mpr ⟨ha, hb⟩)

end

end Vsos.Lib

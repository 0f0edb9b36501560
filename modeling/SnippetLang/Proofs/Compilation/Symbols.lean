import Mathlib.Data.List.Induction
import SnippetLang.Proofs.Compilation.Slots

/-!
# Symbols

Slots go by the name and the type of a variable, its symbol.  The variables with slots are one for
each symbol that was mentioned, in the order of the first mentions.
-/

namespace SnippetLang

/-- The name and the type of a variable, which it has in common with those that share its cell. -/
def Variable.symbol (x : Variable) : String × Ty := (x.name, x.ty)

theorem Variable.same_iff_symbol {x y : Variable} : x.same y = true ↔ x.symbol = y.symbol := by
  simp [same_iff, symbol]

namespace Code

/-- The symbols of variables, each where it is met first. -/
def symbolsOf (xs : List Variable) : List (String × Ty) := (xs.map Variable.symbol).eraseDups

section

variable {α : Type} [BEq α] [LawfulBEq α]

theorem eraseDups_concat_of_mem {xs : List α} {a : α} (h : a ∈ xs) :
    (xs ++ [a]).eraseDups = xs.eraseDups := by
  simp [List.eraseDups_append, List.removeAll, h]

theorem eraseDups_concat_of_not_mem {xs : List α} {a : α} (h : a ∉ xs) :
    (xs ++ [a]).eraseDups = xs.eraseDups ++ [a] := by
  simp [List.eraseDups_append, List.removeAll, h, List.eraseDups_cons]

/-- What is met first stays first under a map that keeps things apart. -/
theorem eraseDups_map {β : Type} [BEq β] [LawfulBEq β] {g : α → β} {xs : List α}
    (hg : ∀ a ∈ xs, ∀ b ∈ xs, g a = g b → a = b) :
    (xs.map g).eraseDups = xs.eraseDups.map g := by
  induction xs using List.reverseRecOn with
  | nil => rfl
  | append_singleton xs a ih =>
    have ih := ih fun b hb c hc =>
      hg b (List.mem_append_left _ hb) c (List.mem_append_left _ hc)
    rw [List.map_append, List.map_singleton]
    by_cases ha : a ∈ xs
    · rw [eraseDups_concat_of_mem ha, eraseDups_concat_of_mem (List.mem_map_of_mem ha), ih]
    · have hga : g a ∉ xs.map g := by
        intro hmem
        rcases List.mem_map.1 hmem with ⟨b, hb, hba⟩
        refine ha ?_
        rw [← hg b (List.mem_append_left _ hb) a (by simp) hba]
        exact hb
      rw [eraseDups_concat_of_not_mem ha, eraseDups_concat_of_not_mem hga, ih, List.map_append]
      rfl

end

section

variable {f : Frame} {vars xs : List Variable} {x : Variable}

theorem slotted_concat (xs : List Variable) (x : Variable) :
    slotted (xs ++ [x]) = withSlot (slotted xs) x := by
  simp [slotted]

theorem any_same_iff : vars.any (·.same x) = true ↔ x.symbol ∈ vars.map Variable.symbol := by
  simp [Variable.same_iff_symbol]

/-- The variables with slots have the symbols that were mentioned. -/
theorem map_symbol_slotted (xs : List Variable) :
    (slotted xs).map Variable.symbol = symbolsOf xs := by
  induction xs using List.reverseRecOn with
  | nil => rfl
  | append_singleton xs x ih =>
    have hmem : (slotted xs).any (·.same x) = true ↔ x.symbol ∈ xs.map Variable.symbol := by
      rw [any_same_iff, ih, symbolsOf, List.mem_eraseDups]
    rw [slotted_concat, withSlot, symbolsOf, List.map_append, List.map_singleton]
    by_cases hx : x.symbol ∈ xs.map Variable.symbol
    · rw [if_pos (hmem.2 hx), eraseDups_concat_of_mem hx]
      exact ih
    · rw [if_neg (mt hmem.1 hx), eraseDups_concat_of_not_mem hx, List.map_append, ih]
      rfl

/-- As many variables have slots as symbols were mentioned. -/
theorem length_slotted (xs : List Variable) : (slotted xs).length = (symbolsOf xs).length := by
  rw [← map_symbol_slotted, List.length_map]

theorem Distinct.nodup_symbols (h : Distinct vars) : (vars.map Variable.symbol).Nodup := by
  refine List.pairwise_map.2 (h.imp ?_)
  intro x y hxy hsymbol
  rw [Variable.same_iff_symbol.2 hsymbol] at hxy
  cases hxy

theorem nodup_symbolsOf (xs : List Variable) : (symbolsOf xs).Nodup := by
  rw [← map_symbol_slotted]
  exact (distinct_slotted xs).nodup_symbols

theorem slotOf_iff_symbol {k : Nat} :
    SlotOf vars x k ↔ (vars.map Variable.symbol)[k]? = some x.symbol := by
  simp [SlotOf, Variable.same_iff_symbol]

/-- A variable has the slot of its symbol. -/
theorem slot_eq_ok_iff (h : Distinct f.vars) {slot : Nat} :
    f.slot x = .ok slot ↔
      ∃ k, slot = k + 1 ∧ (f.vars.map Variable.symbol)[k]? = some x.symbol := by
  simp only [← slotOf_iff_symbol]
  constructor
  · exact slotOf_of_slot
  · rintro ⟨k, rfl, hk⟩
    obtain ⟨y, hy, hsame⟩ := hk
    obtain ⟨slot, hslot⟩ := exists_slot ⟨y, List.mem_of_getElem? hy, hsame⟩
    obtain ⟨j, rfl, hj⟩ := slotOf_of_slot hslot
    rw [hslot, SlotOf.unique h ⟨y, hy, hsame⟩ hj]

end

end Code

end SnippetLang

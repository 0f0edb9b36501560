import SnippetLang.Code.Emission

/-!
# Slots

Which variables a program gets slots for, and what the local slots hold.  A variable shares the slot
of the first one that it shares a cell with, so the slots read as the bindings do.
-/

namespace SnippetLang

namespace Code

/-! ### Variables with slots -/

/-- Gives a variable a slot behind the others, unless it shares the cell of one of them. -/
def withSlot (vars : List Variable) (x : Variable) : List Variable :=
  if vars.any (·.same x) then vars else vars ++ [x]

/-- The variables that get slots of their own among those that a program mentions. -/
def slotted (xs : List Variable) : List Variable := xs.foldl withSlot []

/-- A variable shares the cell of one with a slot. -/
def HasSlot (vars : List Variable) (x : Variable) : Prop := ∃ y ∈ vars, y.same x = true

/-- No two variables share a cell. -/
def Distinct (vars : List Variable) : Prop := vars.Pairwise fun x y => x.same y = false

/-- The variable at an index shares the cell of a variable. -/
def SlotOf (vars : List Variable) (x : Variable) (k : Nat) : Prop :=
  ∃ y, vars[k]? = some y ∧ y.same x = true

section

variable {vars xs : List Variable} {x y : Variable}

theorem any_same_eq_false_iff :
    vars.any (·.same x) = false ↔ ∀ y ∈ vars, y.same x = false := by
  simp

theorem distinct_withSlot (h : Distinct vars) (x : Variable) : Distinct (withSlot vars x) := by
  unfold withSlot
  split
  · exact h
  · next hnot =>
    have hfresh := any_same_eq_false_iff.1 (Bool.eq_false_iff.2 hnot)
    refine List.pairwise_append.2 ⟨h, List.pairwise_singleton _ _, ?_⟩
    intro y hy z hz
    obtain rfl := List.mem_singleton.1 hz
    exact hfresh y hy

theorem hasSlot_withSlot (vars : List Variable) (x : Variable) : HasSlot (withSlot vars x) x := by
  unfold withSlot
  split
  · next h => exact List.any_eq_true.1 h
  · exact ⟨x, List.mem_append_right _ (List.mem_singleton_self x), Variable.same_self x⟩

/-- A variable with a slot needs no other. -/
theorem withSlot_of_hasSlot (h : HasSlot vars x) : withSlot vars x = vars :=
  if_pos (List.any_eq_true.2 h)

theorem HasSlot.withSlot (h : HasSlot vars x) (y : Variable) : HasSlot (withSlot vars y) x := by
  obtain ⟨z, hz, hsame⟩ := h
  refine ⟨z, ?_, hsame⟩
  unfold Code.withSlot
  split
  · exact hz
  · exact List.mem_append_left _ hz

theorem HasSlot.foldl (h : HasSlot vars x) (xs : List Variable) :
    HasSlot (xs.foldl Code.withSlot vars) x := by
  induction xs generalizing vars with
  | nil => exact h
  | cons y rest ih => exact ih (h.withSlot y)

theorem mem_withSlot (h : y ∈ withSlot vars x) : y ∈ vars ∨ y = x := by
  unfold withSlot at h
  split at h
  · exact .inl h
  · simpa using h

theorem distinct_foldl (h : Distinct vars) (xs : List Variable) :
    Distinct (xs.foldl withSlot vars) := by
  induction xs generalizing vars with
  | nil => exact h
  | cons x rest ih => exact ih (distinct_withSlot h x)

theorem hasSlot_foldl (vars : List Variable) (hx : x ∈ xs) :
    HasSlot (xs.foldl withSlot vars) x := by
  induction xs generalizing vars with
  | nil => cases hx
  | cons y rest ih =>
    rcases List.mem_cons.1 hx with rfl | hx
    · exact (hasSlot_withSlot vars x).foldl rest
    · exact ih (withSlot vars y) hx

theorem mem_foldl_withSlot (h : y ∈ xs.foldl withSlot vars) : y ∈ vars ∨ y ∈ xs := by
  induction xs generalizing vars with
  | nil => exact .inl h
  | cons x rest ih =>
    rcases ih h with h | h
    · rcases mem_withSlot h with h | rfl
      · exact .inl h
      · exact .inr (List.mem_cons_self ..)
    · exact .inr (List.mem_cons_of_mem x h)

/-- Every variable that is mentioned shares a slot. -/
theorem hasSlot_slotted (h : x ∈ xs) : HasSlot (slotted xs) x := hasSlot_foldl [] h

theorem distinct_slotted (xs : List Variable) : Distinct (slotted xs) :=
  distinct_foldl List.Pairwise.nil xs

theorem mem_of_mem_slotted (h : y ∈ slotted xs) : y ∈ xs := by
  rcases mem_foldl_withSlot h with h | h
  · cases h
  · exact h

end

/-! ### Slots of frames -/

section

variable {f : Frame} {x : Variable}

/-- A frame answers a slot exactly where the variable has one. -/
theorem slotOf_of_slot {slot : Nat} (h : f.slot x = .ok slot) :
    ∃ k, slot = k + 1 ∧ SlotOf f.vars x k := by
  unfold Frame.slot Frame.slot? at h
  cases hk : f.vars.findIdx? (·.same x) with
  | none =>
    rw [hk] at h
    cases h
  | some k =>
    rw [hk] at h
    cases h
    obtain ⟨hlt, hsame, -⟩ := List.findIdx?_eq_some_iff_getElem.1 hk
    exact ⟨k, rfl, f.vars[k], List.getElem?_eq_getElem hlt, hsame⟩

theorem exists_slot (h : HasSlot f.vars x) : ∃ slot, f.slot x = .ok slot := by
  obtain ⟨y, hy, hsame⟩ := h
  unfold Frame.slot Frame.slot?
  cases hk : f.vars.findIdx? (·.same x) with
  | none => exact absurd hsame (by simp [List.findIdx?_eq_none_iff.1 hk y hy])
  | some k => exact ⟨k + 1, rfl⟩

theorem slot?_eq_none_iff : f.slot? x = none ↔ f.vars.any (·.same x) = false := by
  simp [Frame.slot?]

theorem advanceTo_of_le {p : Phase} (h : f.phase.rank ≤ p.rank) :
    f.advanceTo p = .ok { f with phase := p } := if_neg (Nat.not_lt.2 h)

/-- Allocating adds the variable to those with slots. -/
theorem allocate_eq (hphase : f.phase.rank ≤ 1) (x : Variable) :
    ∃ slot, f.allocate x =
      .ok (slot, { f with phase := .allocatingSlots, vars := withSlot f.vars x }) := by
  unfold Frame.allocate
  rw [advanceTo_of_le (p := .allocatingSlots) hphase]
  cases hslot : f.slot? x with
  | none =>
    have hfresh := slot?_eq_none_iff.1 hslot
    refine ⟨f.vars.length + 1, ?_⟩
    have hslot' : Frame.slot? { f with phase := .allocatingSlots } x = none := hslot
    simp [bind, Except.bind, hslot', withSlot, hfresh, pure, Except.pure]
  | some slot =>
    have hknown : f.vars.any (·.same x) = true := by
      rw [← Bool.not_eq_false, ← slot?_eq_none_iff, hslot]
      exact nofun
    refine ⟨slot, ?_⟩
    have hslot' : Frame.slot? { f with phase := .allocatingSlots } x = some slot := hslot
    simp [bind, Except.bind, hslot', withSlot, hknown, pure, Except.pure]

theorem allocateAll_eq (hphase : f.phase.rank ≤ 1) (xs : List Variable) :
    ∃ phase : Phase, phase.rank ≤ 1 ∧
      allocateAll f xs = .ok { f with phase := phase, vars := xs.foldl withSlot f.vars } := by
  induction xs generalizing f with
  | nil => exact ⟨f.phase, hphase, rfl⟩
  | cons x rest ih =>
    obtain ⟨slot, hslot⟩ := allocate_eq hphase x
    obtain ⟨phase, hrank, hrest⟩ :=
      ih (f := { f with phase := .allocatingSlots, vars := withSlot f.vars x }) (Nat.le_refl 1)
    refine ⟨phase, hrank, ?_⟩
    simp only [allocateAll, hslot, bind, Except.bind]
    exact hrest

end

/-! ### What the slots hold -/

/-- The cells of variables, in the order of their slots. -/
def cellsOf (b : Bindings) (vars : List Variable) : List Cell :=
  vars.map fun x => .ofValue (b.read x)

section

variable {vars : List Variable} {x : Variable} {k : Nat}

theorem read_congr {y : Variable} (h : y.same x = true) (b : Bindings) : b.read y = b.read x := by
  have hsame (z : Variable) : z.same y = z.same x := by
    rw [Variable.same_comm z y, Variable.same_comm z x, Variable.same_congr h z]
  unfold Bindings.read Bindings.find?
  rw [(Variable.same_iff.1 h).2]
  simp only [hsame]

theorem SlotOf.cell (h : SlotOf vars x k) (b : Bindings) :
    (cellsOf b vars)[k]? = some (.ofValue (b.read x)) := by
  obtain ⟨y, hy, hsame⟩ := h
  simp [cellsOf, hy, read_congr hsame b]

theorem SlotOf.lt_length (h : SlotOf vars x k) : k < vars.length := by
  obtain ⟨y, hy, -⟩ := h
  exact (List.getElem?_eq_some_iff.1 hy).1

/-- The slots of distinct variables are distinct. -/
theorem SlotOf.unique (hd : Distinct vars) (h : SlotOf vars x k) {j : Nat} (h' : SlotOf vars x j) :
    j = k := by
  obtain ⟨y, hy, hsame⟩ := h
  obtain ⟨z, hz, hsame'⟩ := h'
  obtain ⟨hk, rfl⟩ := List.getElem?_eq_some_iff.1 hy
  obtain ⟨hj, rfl⟩ := List.getElem?_eq_some_iff.1 hz
  have hboth : vars[j].same vars[k] = true := by
    rw [Variable.same_congr hsame', Variable.same_comm]
    exact hsame
  rcases Nat.lt_trichotomy j k with hlt | heq | hlt
  · have := List.pairwise_iff_getElem.1 hd j k hj hk hlt
    simp [this] at hboth
  · exact heq
  · have := List.pairwise_iff_getElem.1 hd k j hk hj hlt
    rw [Variable.same_comm] at hboth
    simp [this] at hboth

/-- Writing the slot of a variable is setting the variable. -/
theorem SlotOf.set_cell (hd : Distinct vars) (h : SlotOf vars x k) (b : Bindings) (v : Value) :
    (cellsOf b vars).set k (.ofValue v) = cellsOf (b.set x v) vars := by
  apply List.ext_getElem?
  intro j
  rw [List.getElem?_set]
  split
  · next hjk =>
    subst hjk
    have hcell := h.cell (b.set x v)
    rw [hcell, Bindings.read_set, if_pos (Variable.same_self x)]
    simp [cellsOf, h.lt_length]
  · next hne =>
    simp only [cellsOf, List.getElem?_map]
    cases hy : vars[j]? with
    | none => rfl
    | some y =>
      have hnot : ¬ x.same y = true := by
        intro hsame
        exact hne (h.unique hd ⟨y, hy, by rwa [Variable.same_comm]⟩).symm
      simp [Bindings.read_set, hnot]

end

end Code

end SnippetLang

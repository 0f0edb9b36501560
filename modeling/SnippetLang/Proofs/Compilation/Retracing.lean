import SnippetLang.Proofs.Compilation.Agreement
import SnippetLang.Proofs.Compilation.Straight

/-!
# Walks retraced by machines

The run of a compiled method retraces the walk through its program.  It comes to the block of every
statement that leaves code as often as the walk comes to the statement, and each time the slot of a
variable holds what the variable reads as on the walk.
-/

namespace SnippetLang.Code

open Machine (step)
open Typed

/-- What a slot holds where a machine stands at an instruction. -/
def Machine.reading (i slot : Nat) (m : Machine) : Option Cell :=
  if m.index = i then m.locals[slot]? else none

theorem Machine.reading_of_ne {i slot : Nat} {m : Machine} (h : m.index ≠ i) :
    reading i slot m = none := if_neg h

/-- So many steps of the method of a program show of a variable what so many steps of the walk
    show of it: at every statement but labels, which leave no code, the same values in the same
    order. -/
def Retraces (f : Frame) (program : List Stmt) (method : Method) (σ : Store) (x : Variable)
    (n n' : Nat) : Prop :=
  ∀ j s, program[j]? = some s → s.label? = none →
    observed (step method) (Machine.reading (blockIndex f program j) (slotNumber f x)) n'
        (method.start σ) =
      (observed (Walk.step program) (Walk.reading j x) n (Walk.Place.start, σ)).map .ofValue

section

variable {f : Frame} {program : List Stmt} {S : Stage} {start σ : Store} {m : Machine} {s : Stmt}
  {i j : Nat} {x : Variable}

/-! ### Where blocks begin -/

theorem blockIndex_mono (f : Frame) (program : List Stmt) (h : i ≤ j) :
    blockIndex f program i ≤ blockIndex f program j := by
  induction h with
  | refl => exact Nat.le_refl _
  | @step j _ ih =>
    refine Nat.le_trans ih ?_
    cases hs : program[j]? with
    | some s => exact Compiled.blockIndex_succ hs ▸ Nat.le_add_right _ _
    | none =>
      have hj := List.getElem?_eq_none_iff.1 hs
      simp only [blockIndex, offset, List.take_of_length_le hj,
        List.take_of_length_le (Nat.le_succ_of_le hj), Nat.le_refl]

theorem blockIndex_lt_succ (hs : program[i]? = some s) (hexecutable : s.Executable program)
    (hlabel : s.label? = none) : blockIndex f program i < blockIndex f program (i + 1) := by
  rw [Compiled.blockIndex_succ hs]
  refine Nat.lt_add_of_pos_right ?_
  cases hexecutable with
  | declare _ _ _ =>
    rw [block, resolvedCode_map_instr]
    simp [resultCode]
  | expr _ =>
    rw [block, resolvedCode_map_instr]
    simp [resultCode]
  | goto _ => exact Nat.succ_pos _
  | gotoIf _ _ _ =>
    rw [block, resolvedCode_append, List.length_append]
    exact Nat.lt_add_left _ (Nat.succ_pos _)
  | label => cases hlabel

/-- Two statements, the second of which has code, have their blocks apart. -/
theorem blockIndex_apart (hj : program[j]? = some s) (hexecutable : s.Executable program)
    (hlabel : s.label? = none) (hij : i ≠ j) {k : Nat} (hk : blockIndex f program i ≤ k)
    (hk' : k < blockIndex f program (i + 1)) : k ≠ blockIndex f program j := by
  rcases Nat.lt_or_gt_of_ne hij with hlt | hlt
  · have hlater : blockIndex f program (i + 1) ≤ blockIndex f program j :=
      blockIndex_mono f program hlt
    omega
  · have hnext := blockIndex_lt_succ (f := f) hj hexecutable hlabel
    have hearlier : blockIndex f program (j + 1) ≤ blockIndex f program i :=
      blockIndex_mono f program hlt
    omega

/-! ### Straight blocks -/

/-- Only the last instruction of a block may be a branch. -/
theorem straight_block (hs : s.Executable program) (hvars : ∀ x ∈ stmtVariables s, HasSlot f.vars x)
    (target : JumpLabel → Nat) {k : Nat} {ins : Instr}
    (hk : k + 1 < (resolvedCode target (block f s)).length)
    (hins : (resolvedCode target (block f s))[k]? = some ins) : ins.target? = none := by
  cases hs with
  | @declare x init _ _ hinit =>
    rw [block, resolvedCode_map_instr] at hins
    have hcode := (exprCode_eq hinit (List.forall_mem_append.1 hvars).1).2
    exact (hcode.append (.cons rfl (.cons rfl .nil))).append (straight_resultCode x.ty) _
      (List.mem_of_getElem? hins)
  | @expr e he =>
    rw [block, resolvedCode_map_instr] at hins
    exact (exprCode_eq he hvars).2.append (straight_resultCode e.ty) _ (List.mem_of_getElem? hins)
  | goto _ => exact absurd hk (by simp [block, resolvedCode, Item.resolved])
  | @gotoIf l c jumpIf _ _ hc =>
    rw [block, resolvedCode_append, resolvedCode_map_instr] at hins hk
    have hk : k < (codeOf f c).length := by
      rw [List.length_append] at hk
      exact Nat.lt_of_succ_lt_succ hk
    rw [List.getElem?_append_left hk] at hins
    exact (exprCode_eq hc hvars).2 _ (List.mem_of_getElem? hins)
  | label => cases hins

namespace Compiled

theorem straight_block (h : Compiled f program S) (hs : program[i]? = some s) {k : Nat}
    {ins : Instr} (hk : blockIndex f program i + (k + 1) < blockIndex f program (i + 1))
    (hins : S.method.instructions[blockIndex f program i + k]? = some ins) :
    ins.target? = none := by
  have hmem := List.mem_of_getElem? hs
  rw [blockIndex_succ hs] at hk
  rw [(h.placed_block hs).getElem? (by omega)] at hins
  exact Code.straight_block (h.executable s hmem) (h.hasSlot hmem) _ (by omega) hins

/-- Behind the blocks a machine never goes back. -/
theorem closing_of_step (h : Compiled f program S) {m' : Machine}
    (hm : blockIndex f program program.length ≤ m.index) (hstep : step S.method m = .running m') :
    blockIndex f program program.length ≤ m'.index := by
  obtain ⟨ins, hins⟩ := Machine.getElem?_of_step hstep
  have hblocks : blockIndex f program program.length = (opening (slotsOf program) ++
      resolvedCode (jumpIndex f program) (blocks f program)).length := blockIndex_length f program
  have hclosing : ins ∈ closing (slotsOf program) := by
    have hins' := hins
    rw [h.instructions, List.getElem?_append_right (hblocks ▸ hm)] at hins'
    exact List.mem_of_getElem? hins'
  rw [Machine.index_of_step hins (straight_closing _ ins hclosing) hstep]
  exact Nat.le_succ_of_le hm

/-- From the closing of the method on, nothing is seen of the block of a statement. -/
theorem observed_closing (h : Compiled f program S) (hs : program[j]? = some s)
    (hlabel : s.label? = none) (slot : Nat) {n : Nat} {m' : Machine}
    (hm : blockIndex f program program.length ≤ m.index) (hsteps : Steps (step S.method) n m m') :
    observed (step S.method) (Machine.reading (blockIndex f program j) slot) n m = [] ∧
      Machine.reading (blockIndex f program j) slot m' = none := by
  have hexecutable := h.executable s (List.mem_of_getElem? hs)
  have hblock := Nat.lt_of_lt_of_le (blockIndex_lt_succ (f := f) hs hexecutable hlabel)
    (blockIndex_mono f program (List.getElem?_eq_some_iff.1 hs).1)
  have hquiet (u : Machine) (hu : blockIndex f program program.length ≤ u.index) :
      Machine.reading (blockIndex f program j) slot u = none :=
    Machine.reading_of_ne (Nat.ne_of_gt (Nat.lt_of_lt_of_le hblock hu))
  have hkeeps : ∀ u u' : Machine, blockIndex f program program.length ≤ u.index →
      step S.method u = .running u' → blockIndex f program program.length ≤ u'.index :=
    fun u u' => h.closing_of_step
  exact ⟨(hsteps.through hkeeps hm).observed_eq_nil hquiet, hquiet m' (hsteps.keeps hkeeps hm)⟩

/-- Where a machine stands beside a walk at a statement, the slot of a variable holds what the
    variable reads as. -/
theorem reading_eq (h : Compiled f program S) (hx : HasSlot (slotsOf program) x) {last : Value}
    (hrel : Related f program S start (⟨i, last⟩, σ) m) :
    Machine.reading (blockIndex f program i) (slotNumber f x) m =
      some (.ofValue (σ.bindings.read x)) := by
  have hx' : HasSlot f.vars x := h.vars.symm ▸ hx
  obtain ⟨k, hk, hslot⟩ := slotOf_of_slot (slot_eq hx')
  rw [h.frame_vars] at hslot
  rw [hrel.machine, hk]
  exact (if_pos rfl).trans (hslot.cell σ.bindings)

/-- A step of a walk is retraced by a chain, as long as the block of its statement. -/
theorem retraces_step (h : Compiled f program S) (hx : HasSlot (slotsOf program) x)
    {state next : Walk.Place × Store} (hrel : Related f program S start state m)
    (hstep : Walk.step program state = .running next) :
    ∃ k m', Steps (step S.method) k m m' ∧ Related f program S start next m' ∧
      ∀ j s, program[j]? = some s → s.label? = none →
        observed (step S.method) (Machine.reading (blockIndex f program j) (slotNumber f x)) k m =
          ((Walk.reading j x state).toList).map .ofValue := by
  obtain ⟨t, ht⟩ := Walk.getElem?_of_step hstep
  obtain ⟨⟨i, last⟩, σ⟩ := state
  have hanswered := answered h hrel
  rw [hstep] at hanswered
  cases hanswered with
  | @running _ k m' hthrough hlength hnext _ =>
    refine ⟨k, m', hthrough.steps, hnext, fun j s hs hlabel => ?_⟩
    have hindex : m.index = blockIndex f program i := hrel.machine ▸ rfl
    have hlength : blockIndex f program (i + 1) = blockIndex f program i + k := hlength
    have hexecutable := h.executable s (List.mem_of_getElem? hs)
    have hcode : ∀ p ins, p + 1 < k → S.method.instructions[m.index + p]? = some ins →
        ins.target? = none :=
      fun p ins hp hins => h.straight_block ht (by omega) (hindex ▸ hins)
    by_cases hij : i = j
    · subst hij
      have hk : 0 < k := by
        have := blockIndex_lt_succ (f := f) hs hexecutable hlabel
        omega
      rw [Machine.observed_of_steps hcode hthrough.steps hk fun u hu =>
        Machine.reading_of_ne (hindex ▸ hu), h.reading_eq hx hrel, Walk.reading, if_pos rfl]
      rfl
    · rw [(Machine.through_of_steps hcode hthrough.steps).observed_eq_nil fun u hu =>
        Machine.reading_of_ne (blockIndex_apart hs hexecutable hlabel hij (hindex ▸ hu.1)
          (hlength ▸ hindex ▸ hu.2)), Walk.reading_of_ne hij]
      rfl

theorem retraces_steps (h : Compiled f program S) (hx : HasSlot (slotsOf program) x) {n : Nat}
    {state next : Walk.Place × Store} (hsteps : Steps (Walk.step program) n state next)
    (hrel : Related f program S start state m) :
    ∃ k m', Steps (step S.method) k m m' ∧ Related f program S start next m' ∧
      ∀ j s, program[j]? = some s → s.label? = none →
        observed (step S.method) (Machine.reading (blockIndex f program j) (slotNumber f x)) k m =
          (observed (Walk.step program) (Walk.reading j x) n state).map .ofValue := by
  induction hsteps generalizing m with
  | refl => exact ⟨0, m, .refl, hrel, fun _ _ _ _ => rfl⟩
  | head hstep _ ih =>
    obtain ⟨k, m', hk, hrel', hseen⟩ := h.retraces_step hx hrel hstep
    obtain ⟨k', m'', hk', hrel'', hseen'⟩ := ih hrel'
    refine ⟨k + k', m'', hk.trans hk', hrel'', fun j s hs hlabel => ?_⟩
    rw [hk.observed_add, observed_running hstep, List.map_append, hseen j s hs hlabel,
      hseen' j s hs hlabel]

end Compiled

/-! ### Whole runs -/

namespace Opened

/-- However far a walk goes, a run of the method goes as far, and retraces it. -/
theorem retraces_steps (h : Opened f program S σ m) (hx : HasSlot (slotsOf program) x) {n : Nat}
    {next : Walk.Place × Store}
    (hsteps : Steps (Walk.step program) n (Walk.Place.start, σ) next) :
    ∃ n' m', Steps (step S.method) n' (S.method.start σ) m' ∧ Related f program S σ next m' ∧
      Retraces f program S.method σ x n n' := by
  obtain ⟨k, hthrough⟩ := h.through
  obtain ⟨k', m', hk', hrel, hseen⟩ := h.compiled.retraces_steps hx hsteps h.related
  refine ⟨k + k', m', hthrough.steps.trans hk', hrel, fun j s hs hlabel => ?_⟩
  rw [hthrough.steps.observed_add, hseen j s hs hlabel, hthrough.observed_eq_nil, List.nil_append]
  intro u hu
  rw [h.compiled.vars_eq] at hu
  exact Machine.reading_of_ne (Nat.ne_of_lt (Nat.lt_of_lt_of_le hu (Nat.le_add_right _ _)))

/-- A run of the method retraces a walk that ends with a value to its end, and the ends match. -/
theorem retraces (h : Opened f program S σ m) (hx : HasSlot (slotsOf program) x) {n : Nat}
    {v : Value} {τ : Store}
    (hn : runFor (Walk.step program) n (Walk.Place.start, σ) = some (.ok v τ)) :
    ∃ n' c, runFor (step S.method) n' (S.method.start σ) = some c ∧
      Matches (slotsOf program) σ (.ok v τ) c ∧ Retraces f program S.method σ x n n' := by
  obtain ⟨k, state, hk, hend, hseen⟩ := exists_steps_of_runFor hn
  obtain ⟨k', m', hk', hrel, hretraces⟩ := h.retraces_steps hx hk
  have hlast := Walk.length_le_of_step_ok hend
  have hplace : state.1.index = program.length := Nat.le_antisymm hrel.place hlast
  have hanswered := answered h.compiled hrel
  rw [hend] at hanswered
  cases hanswered with
  | @finished _ k'' c hends hmatch =>
    obtain ⟨m'', hthrough, -, hfinal⟩ := hends
    have hall := hk'.trans hthrough.steps
    refine ⟨k' + k'' + 1, c, ?_, hmatch, fun j s hs hlabel => ?_⟩
    · rw [hall.runFor_add]
      simp only [runFor, hfinal]
    have hindex : blockIndex f program program.length ≤ m'.index :=
      Nat.le_of_eq (hrel.machine ▸ hplace ▸ rfl)
    obtain ⟨hclosing, hreturn⟩ :=
      h.compiled.observed_closing hs hlabel (slotNumber f x) hindex hthrough.steps
    have hj := (List.getElem?_eq_some_iff.1 hs).1
    have hbehind : Walk.reading j x state = none := Walk.reading_of_ne (by omega)
    rw [hseen, hbehind, Option.toList_none, List.append_nil, ← hretraces j s hs hlabel,
      hall.observed_end hfinal, hk'.observed_add, hclosing, hreturn,
      List.append_nil, Option.toList_none, List.append_nil]

end Opened

end

end SnippetLang.Code

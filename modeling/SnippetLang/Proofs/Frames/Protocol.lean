import SnippetLang.Proofs.Compilation.Arguments
import SnippetLang.Proofs.Compilation.Symbols

/-!
# The protocol of frames

A frame is built by operations that come in any order, and those that do not fit in are refused.
What the frame is in the end depends on the accepted ones alone, and `accepted` says from the
operations themselves which these are.  From them follow the slots of the frame, the method that it
is finished to, and the label that it cannot be finished for.

A jump that is refused leaves nothing behind, not even its label.  A branch that is added with its
target goes on further by what brings the variables into their slots, as long as the sum is a word.
-/

namespace SnippetLang.Code

/-! ### Operations -/

/-- An operation on a frame.  The targets of instructions are words. -/
inductive Operation where
  | allocate (x : Variable)
  | slot (x : Variable)
  | emit (i : Instr) (fits : i.Fits)
  | jump (i : Instr) (fits : i.Fits) (l : JumpLabel)
  | mark (l : JumpLabel)

/-- The slot that an operation answers, if it answers one, or why it is refused. -/
abbrev Answer := Except InternalError (Option Nat)

/-- The answer to an operation that changes a frame and answers no slot, with the frame that it
    leaves: the one before where the change is refused. -/
def settle (before : Frame) : Except InternalError Frame → Answer × Frame
  | .ok after => (.ok none, after)
  | .error e => (.error e, before)

namespace Operation

/-- What an operation answers, and the frame that it leaves.  A jump is noted before its branch is
    added, so the note would stay behind if the branch were refused. -/
def perform (f : Frame) : Operation → Answer × Frame
  | allocate x =>
    match f.allocate x with
    | .ok (s, after) => (.ok (some s), after)
    | .error e => (.error e, f)
  | slot x => ((f.slot x).map some, f)
  | emit i _ => settle f (f.emit i)
  | jump i _ l =>
    match i.target? with
    | none => (.error (.invalidProgram (.notABranch i)), f)
    | some _ =>
      let noted : Frame := { f with jumps := f.jumps ++ [(f.body.length, l)] }
      settle noted (noted.emit i)
  | mark l => settle f (f.mark l)

/-- The variable that an operation gives a slot. -/
def allocated? : Operation → Option Variable
  | allocate x => some x
  | _ => none

/-- What an operation puts into the code. -/
def item? : Operation → Option Item
  | emit i _ => some (.instr i)
  | jump i _ l => some (.jump i l)
  | mark l => some (.mark l)
  | _ => none

end Operation

/-- The variables that operations give slots, in order. -/
def allocated (done : List Operation) : List Variable := done.filterMap Operation.allocated?

/-- What operations put into the code, in order. -/
def issued (done : List Operation) : List Item := done.filterMap Operation.item?

/-- Whether an operation is refused after others: slots are given only before anything is put into
    the code and found only for what has one, and only branches jump. -/
def Operation.refused (done : List Operation) : Operation → Bool
  | allocate _ => !(issued done).isEmpty
  | slot x => x.symbol ∉ symbolsOf (allocated done)
  | jump i _ _ => i.target? = none
  | emit _ _ | mark _ => false

/-- Accepts an operation after others, unless it is refused. -/
def accept (done : List Operation) (op : Operation) : List Operation :=
  if op.refused done then done else done ++ [op]

/-- The operations that are not refused, in order. -/
def accepted (ops : List Operation) : List Operation := ops.foldl accept []

/-- The frame that operations leave behind. -/
def Frame.after (f : Frame) (ops : List Operation) : Frame :=
  ops.foldl (fun f op => (op.perform f).2) f

/-! ### What one operation keeps -/

theorem allocated_concat (done : List Operation) (op : Operation) :
    allocated (done ++ [op]) = allocated done ++ op.allocated?.toList := by
  cases op <;> simp [allocated, Operation.allocated?]

theorem issued_concat (done : List Operation) (op : Operation) :
    issued (done ++ [op]) = issued done ++ op.item?.toList := by
  cases op <;> simp [issued, Operation.item?]

/-- A frame is what the accepted operations make of it. -/
structure Frame.Follows (f : Frame) (done : List Operation) : Prop where
  vars : f.vars = slotted (allocated done)
  contains : f.Contains (issued done)
  phase : f.phase.rank ≤ 1 ↔ issued done = []

theorem Frame.empty_follows : Frame.empty.Follows [] :=
  ⟨rfl, ⟨Nat.zero_le _, rfl, fun _ => rfl, rfl⟩, by decide⟩

/-- What an operation does to a frame: it is refused and leaves the frame as it is, or it takes its
    place behind the accepted ones. -/
inductive Performed (f : Frame) (done : List Operation) (op : Operation) : Answer × Frame → Prop where
  | refused (e : InternalError) : op.refused done = true → Performed f done op (.error e, f)
  | accepted {answer : Option Nat} {after : Frame} : op.refused done = false →
      after.Follows (done ++ [op]) → f.phase.rank ≤ after.phase.rank →
      (∀ x, op = .allocate x → ∀ slot ∈ answer, after.slot x = .ok slot) →
      Performed f done op (.ok answer, after)

section

variable {f : Frame} {done : List Operation} {op : Operation} {outcome : Answer × Frame}

namespace Performed

theorem refusal (h : Performed f done op outcome) :
    (∃ e, outcome.1 = .error e) ↔ op.refused done = true := by
  cases h with
  | refused e hrefused => simp [hrefused]
  | accepted hrefused => simp [hrefused]

theorem unchanged (h : Performed f done op outcome) (hrefused : op.refused done = true) :
    outcome.2 = f := by
  cases h with
  | refused => rfl
  | accepted hnot => simp [hnot] at hrefused

theorem phase_le (h : Performed f done op outcome) : f.phase.rank ≤ outcome.2.phase.rank := by
  cases h with
  | refused => exact Nat.le_refl _
  | accepted _ _ hphase => exact hphase

theorem follows (h : Performed f done op outcome) (hf : f.Follows done) :
    outcome.2.Follows (accept done op) := by
  unfold accept
  cases h with
  | refused e hrefused =>
    rw [if_pos hrefused]
    exact hf
  | accepted hrefused hafter =>
    rw [hrefused]
    exact hafter

theorem answered {x : Variable} {slot : Nat} {after : Frame}
    (h : Performed f done (.allocate x) (.ok (some slot), after)) : after.slot x = .ok slot := by
  cases h with
  | accepted _ _ _ hanswer => exact hanswer x rfl slot rfl

end Performed

theorem allocate_eq_error {x : Variable} (h : ¬ f.phase.rank ≤ 1) : ∃ e, f.allocate x = .error e := by
  have hadvance : f.advanceTo .allocatingSlots =
      .error (.invalidProgram (.phaseOrder f.phase .allocatingSlots)) := if_pos (Nat.lt_of_not_le h)
  refine ⟨.invalidProgram (.phaseOrder f.phase .allocatingSlots), ?_⟩
  unfold Frame.allocate
  rw [hadvance]
  rfl

/-- The slot that is answered at the allocation of a variable is the one that is found for it. -/
theorem slot_of_allocate {x : Variable} {slot : Nat} {after : Frame}
    (h : f.allocate x = .ok (slot, after)) : after.slot x = .ok slot := by
  unfold Frame.allocate Frame.advanceTo at h
  split at h
  · cases h
  simp only [bind, Except.bind] at h
  split at h
  · next s hs =>
    cases h
    simp [Frame.slot, hs]
  · next hs =>
    cases h
    have hnone : f.vars.findIdx? (·.same x) = none := by
      simpa [Frame.slot?] using hs
    simp [Frame.slot, Frame.slot?, List.findIdx?_append, hnone]

namespace Frame.Follows

theorem performed_allocate (h : f.Follows done) (x : Variable) :
    Performed f done (.allocate x) (Operation.perform f (.allocate x)) := by
  by_cases hphase : f.phase.rank ≤ 1
  · have hissued := h.phase.1 hphase
    obtain ⟨slot, hslot⟩ := allocate_eq hphase x
    simp only [Operation.perform, hslot]
    refine .accepted (by simp [Operation.refused, hissued]) ?_ hphase ?_
    · constructor
      · simp [allocated_concat, Operation.allocated?, slotted_concat, h.vars]
      · simp only [issued_concat, Operation.item?, Option.toList_none, List.append_nil]
        exact ⟨Nat.le_succ 1, h.contains.body, h.contains.marks, h.contains.jumps⟩
      · simp [issued_concat, Operation.item?, hissued, Phase.rank]
    · rintro y hy s hs
      cases hy
      cases hs
      exact slot_of_allocate hslot
  · obtain ⟨e, he⟩ := allocate_eq_error (x := x) hphase
    simp only [Operation.perform, he]
    exact .refused e (by simpa [Operation.refused] using mt h.phase.2 hphase)

theorem performed_slot (h : f.Follows done) (x : Variable) :
    Performed f done (.slot x) (Operation.perform f (.slot x)) := by
  have hrefused : Operation.refused done (.slot x) = !f.vars.any (·.same x) := by
    rw [Bool.eq_iff_iff]
    simp only [Operation.refused, decide_eq_true_eq, Bool.not_eq_true', ← Bool.not_eq_true,
      any_same_iff, h.vars, map_symbol_slotted]
  simp only [Operation.perform, Frame.slot]
  cases hslot : f.slot? x with
  | none =>
    refine .refused _ ?_
    rw [hrefused, slot?_eq_none_iff.1 hslot]
    rfl
  | some s =>
    refine .accepted ?_ ?_ (Nat.le_refl _) nofun
    · rw [hrefused, Bool.not_eq_false', ← Bool.not_eq_false, ← slot?_eq_none_iff, hslot]
      exact nofun
    · constructor
      · simpa [allocated_concat, Operation.allocated?] using h.vars
      · simpa [issued_concat, Operation.item?] using h.contains
      · simpa [issued_concat, Operation.item?] using h.phase

/-- Nothing that is put into the code is refused for the phase, so nothing stays noted of what is
    refused. -/
theorem perform_item (h : f.Follows done) {op : Operation} {item : Item} (hop : op.item? = some item) :
    op.perform f = settle f (f.put item) := by
  cases op with
  | emit i fits =>
    cases hop
    rfl
  | mark l =>
    cases hop
    rfl
  | jump i fits l =>
    cases hop
    simp only [Operation.perform, Frame.put, Frame.jump]
    cases ht : i.target? with
    | none => rfl
    | some t =>
      have hemit := Frame.emit_eq (f := { f with jumps := f.jumps ++ [(f.body.length, l)] })
        h.contains.phase i
      simp only [hemit]
      rfl
  | allocate x => cases hop
  | slot x => cases hop

theorem performed_item (h : f.Follows done) {op : Operation} {item : Item} (hop : op.item? = some item) :
    Performed f done op (op.perform f) := by
  rw [h.perform_item hop]
  by_cases hjump : ∀ i l, item = .jump i l → i.target? ≠ none
  · obtain ⟨after, hput, hcontains, hvars, hphase⟩ := h.contains.put hjump
    rw [hput]
    refine .accepted ?_ ?_ ?_ ?_
    · cases op <;> cases hop <;> simp_all [Operation.refused]
    · constructor
      · have hnone : op.allocated? = none := by cases op <;> cases hop <;> rfl
        simp [allocated_concat, hnone, hvars, h.vars]
      · simpa [issued_concat, hop] using hcontains
      · simp [issued_concat, hop, hphase, Phase.rank]
    · rw [hphase]
      exact h.contains.phase
    · rintro x rfl
      cases hop
  · have hnot : ∃ i fits l, op = .jump i fits l ∧ item = .jump i l ∧ i.target? = none := by
      cases op with
      | jump i fits l =>
        cases hop
        simpa [fits] using hjump
      | emit i fits =>
        cases hop
        simp at hjump
      | mark l =>
        cases hop
        simp at hjump
      | allocate x => cases hop
      | slot x => cases hop
    rcases hnot with ⟨i, fits, l, rfl, rfl, ht⟩
    simp only [Frame.put, Frame.jump, ht, settle]
    exact .refused _ (by simp [Operation.refused, ht])

/-- Every operation is refused or takes its place behind the accepted ones. -/
theorem performed (h : f.Follows done) (op : Operation) : Performed f done op (op.perform f) := by
  cases op with
  | allocate x => exact h.performed_allocate x
  | slot x => exact h.performed_slot x
  | emit i fits => exact h.performed_item rfl
  | jump i fits l => exact h.performed_item rfl
  | mark l => exact h.performed_item rfl

end Frame.Follows

end

/-! ### What operations make of a frame -/

theorem Frame.after_concat (f : Frame) (ops : List Operation) (op : Operation) :
    f.after (ops ++ [op]) = (op.perform (f.after ops)).2 := by
  simp [Frame.after]

theorem accepted_concat (ops : List Operation) (op : Operation) :
    accepted (ops ++ [op]) = accept (accepted ops) op := by
  simp [accepted]

/-- Whatever the operations are, a frame is what the accepted ones make of it. -/
theorem follows_after (ops : List Operation) : (Frame.empty.after ops).Follows (accepted ops) := by
  induction ops using List.reverseRecOn with
  | nil => exact Frame.empty_follows
  | append_singleton ops op ih =>
    rw [Frame.after_concat, accepted_concat]
    exact (ih.performed op).follows ih

/-! ### Targets in methods -/

theorem Instr.fits_of_target?_eq_none {i : Instr} (h : i.target? = none) : i.Fits := by
  intro t ht
  rw [h] at ht
  cases ht

theorem Instr.fits_shift (i : Instr) (n : Nat) : (i.shift n).Fits := by
  have hword (t : Nat) : (t + n) % UInt64.size < UInt64.size := Nat.mod_lt _ (by decide)
  cases i with
  | branch t | branchTrue t | branchFalse t =>
    rintro _ ⟨⟩
    exact hword t
  | _ => exact Instr.fits_of_target?_eq_none rfl

theorem Instr.fits_retarget {t : Nat} (h : t < UInt64.size) (i : Instr) :
    (i.retarget fun _ => t).Fits := by
  cases i with
  | branch _ | branchTrue _ | branchFalse _ =>
    rintro _ ⟨⟩
    exact h
  | _ => exact Instr.fits_of_target?_eq_none rfl

theorem length_shifted (target : JumpLabel → Nat) (shift : Nat) (items : List Item) :
    (items.flatMap (Item.shifted target shift)).length = (rawCode items).length := by
  rw [rawCode, List.length_flatMap, List.length_flatMap]
  congr 2
  funext item
  cases item <;> rfl

theorem fits_of_mem_opening {vars : List Variable} {i : Instr} (h : i ∈ opening vars) : i.Fits := by
  rw [opening_eq] at h
  obtain ⟨⟨x, k⟩, -, hi⟩ := List.mem_flatMap.1 h
  apply Instr.fits_of_target?_eq_none
  simp only [fetch, List.mem_cons, List.not_mem_nil, or_false] at hi
  rcases hi with rfl | rfl | rfl | rfl | rfl <;> rfl

theorem fits_of_mem_closing {vars : List Variable} {i : Instr} (h : i ∈ closing vars) : i.Fits := by
  rw [closing_eq, List.mem_append] at h
  apply Instr.fits_of_target?_eq_none
  rcases h with h | h
  · obtain ⟨⟨x, k⟩, -, hi⟩ := List.mem_flatMap.1 h
    simp only [putBack, List.mem_cons, List.not_mem_nil, or_false] at hi
    rcases hi with rfl | rfl | rfl | rfl | rfl <;> rfl
  · simp only [List.mem_cons, List.not_mem_nil, or_false] at h
    rcases h with rfl | rfl <;> rfl

/-- Labels are at indices of the method, and a sum that is too great for a word leaves a word. -/
theorem fits_of_mem_shifted {items : List Item} {target : JumpLabel → Nat} {shift : Nat} {i : Instr}
    (htarget : ∀ l, target l + shift < UInt64.size)
    (h : i ∈ items.flatMap (Item.shifted target shift)) : i.Fits := by
  obtain ⟨item, -, hi⟩ := List.mem_flatMap.1 h
  cases item with
  | instr j =>
    obtain rfl := List.mem_singleton.1 hi
    exact j.fits_shift shift
  | jump j l =>
    obtain rfl := List.mem_singleton.1 hi
    exact Instr.fits_retarget (htarget l) j
  | mark l => cases hi

/-- No label is marked behind the end of the code. -/
theorem places_le (items : List Item) (l : JumpLabel) : places items l ≤ (rawCode items).length := by
  unfold places
  cases hl : markedAt? l items with
  | none => exact Nat.zero_le _
  | some k => exact markedAt?_le hl

theorem Frame.Contains.fits_of_finalize {f : Frame} {items : List Item} {m : Method} {i : Instr}
    (h : f.Contains items) (hm : f.finalize = .ok m) (hlength : m.instructions.length ≤ UInt64.size)
    (hi : i ∈ m.instructions) : i.Fits := by
  rw [h.finalize_eq] at hm
  split at hm
  · cases hm
  split at hm
  · obtain rfl := Except.ok.inj hm
    have htarget (l : JumpLabel) : places items l + (opening f.vars).length < UInt64.size := by
      have hl := places_le items l
      simp only [List.length_append, length_shifted, closing, List.length_cons] at hlength
      omega
    rcases List.mem_append.1 hi with hi | hi
    · rcases List.mem_append.1 hi with hi | hi
      · exact fits_of_mem_opening hi
      · exact fits_of_mem_shifted htarget hi
    · exact fits_of_mem_closing hi
  · cases hm

/-! ### What the accepted operations say -/

/-- What holds of a frame after operations of which some were accepted. -/
structure Frame.Obeys (f : Frame) (done : List Operation) : Prop where
  /-- Which operations are refused is seen from the accepted ones. -/
  refusal (op : Operation) : (∃ e, (op.perform f).1 = .error e) ↔ op.refused done = true
  /-- What is refused leaves the frame as it was. -/
  unchanged (op : Operation) : op.refused done = true → (op.perform f).2 = f
  /-- No operation leads to an earlier phase. -/
  phase (op : Operation) : f.phase.rank ≤ (op.perform f).2.phase.rank
  /-- Slots are given to the symbols in the order in which they come. -/
  symbols : f.vars.map Variable.symbol = symbolsOf (allocated done)
  /-- The slots count from 1. -/
  slots (x : Variable) (slot : Nat) : f.slot x = .ok slot ↔
    ∃ k, slot = k + 1 ∧ (symbolsOf (allocated done))[k]? = some x.symbol
  /-- The slot that is answered for a variable is the one that it has from then on. -/
  answer (x : Variable) (slot : Nat) (after : Frame) :
    Operation.perform f (.allocate x) = (.ok (some slot), after) → after.slot x = .ok slot
  /-- The frame is finished unless a jump has nowhere to go: the code stands behind what brings the
      variables into their slots, and its jumps go to the last marks of their labels there. -/
  finished : f.finalize =
    match unmarked? (issued done) with
    | some l => .error (.unmarkedLabel l)
    | none =>
      if f.vars.length ≤ 2147483648 then
        .ok ⟨(f.vars.zipIdx.flatMap fun p => fetch p.2 p.1) ++
          (issued done).flatMap (Item.shifted (places (issued done)) (5 * f.vars.length)) ++
          ((f.vars.zipIdx.flatMap fun p => putBack p.2 p.1) ++ [.loadLocal resultSlot, .ret]),
          f.vars⟩
      else
        .error (.invalidProgram .tooManyVariables)
  /-- A branch that is shifted goes on further by what stands before the code, if that is a word. -/
  shifted (i : Instr) : (∀ t ∈ i.target?, t + 5 * f.vars.length < UInt64.size) →
    i.shift (5 * f.vars.length) = i.retarget (· + 5 * f.vars.length)
  /-- No label is marked behind the end of the code. -/
  lands (l : JumpLabel) : places (issued done) l ≤ (rawCode (issued done)).length
  /-- The targets in the method are words, if its indices are. -/
  words (m : Method) : f.finalize = .ok m → m.instructions.length ≤ UInt64.size →
    ∀ i ∈ m.instructions, i.Fits

/-- The frame that operations leave behind, failing ones among them, in whatever order they come. -/
theorem frame_protocol (ops : List Operation) : (Frame.empty.after ops).Obeys (accepted ops) := by
  have hfollows := follows_after ops
  generalize Frame.empty.after ops = f at hfollows
  generalize accepted ops = done at hfollows
  constructor
  · intro op
    exact (hfollows.performed op).refusal
  · intro op hrefused
    exact (hfollows.performed op).unchanged hrefused
  · intro op
    exact (hfollows.performed op).phase_le
  · rw [hfollows.vars, map_symbol_slotted]
  · intro x slot
    rw [slot_eq_ok_iff (hfollows.vars ▸ distinct_slotted _), hfollows.vars, map_symbol_slotted]
  · intro x slot after hperform
    exact (hperform ▸ hfollows.performed (.allocate x)).answered
  · have hfinalize := hfollows.contains.finalize_eq
    rw [opening, length_prologue, ← opening, opening_eq, closing_eq] at hfinalize
    exact hfinalize
  · intro i hi
    exact Instr.shift_eq_retarget hi
  · exact places_le (issued done)
  · intro m hm hlength i hi
    exact hfollows.contains.fits_of_finalize hm hlength hi

/-- A jump that is refused has no label that a mark is missing for, and behind a variable a branch
    to the last word goes to the word before the code. -/
theorem frame_protocol_fails :
    (let op := Operation.jump .nop (by decide) ⟨1⟩
     (∃ e, (op.perform Frame.empty).1 = .error e) ∧
       ∃ m, (Frame.empty.after [op]).finalize = .ok m) ∧
    ∃ m, (Frame.empty.after [.allocate ⟨"x", false, .int⟩,
        .emit (.branch (UInt64.size - 1)) (by decide)]).finalize = .ok m ∧
      m.instructions[5]? = some (.branch 4) :=
  ⟨⟨⟨_, rfl⟩, _, rfl⟩, _, rfl, rfl⟩

end SnippetLang.Code

import SnippetLang.Proofs.Compilation.Slots

/-!
# Items in frames

What a frame holds after items were put into it, and what the finished method makes of them: the
instructions stand in a row, and every jump goes to the place of the last mark of its label.
-/

namespace SnippetLang.Code

/-! ### Items as instructions -/

/-- The instruction of an item, a branch still without its target. -/
def Item.raw : Item → List Instr
  | .instr i => [i]
  | .jump i _ => [i]
  | .mark _ => []

def rawCode (items : List Item) : List Instr := items.flatMap Item.raw

/-- The instruction of an item in the end, where labels have their targets. -/
def Item.resolved (target : JumpLabel → Nat) : Item → List Instr
  | .instr i => [i]
  | .jump i l => [i.retarget fun _ => target l]
  | .mark _ => []

def resolvedCode (target : JumpLabel → Nat) (items : List Item) : List Instr :=
  items.flatMap (Item.resolved target)

/-- The index behind which the last mark of a label stands. -/
def markedAt? (l : JumpLabel) : List Item → Option Nat
  | [] => none
  | item :: rest =>
    match markedAt? l rest with
    | some k => some (item.raw.length + k)
    | none => if item = .mark l then some 0 else none

/-- The jumps among items that stand from an index on, with their indices. -/
def waiting (index : Nat) : List Item → List (Nat × JumpLabel)
  | [] => []
  | .instr _ :: rest => waiting (index + 1) rest
  | .jump _ l :: rest => (index, l) :: waiting (index + 1) rest
  | .mark _ :: rest => waiting index rest

/-- The label that a jump waits for. -/
def Item.awaited? : Item → Option JumpLabel
  | .jump _ l => some l
  | _ => none

/-- The first label that a jump waits for and nothing marks. -/
def unmarked? (items : List Item) : Option JumpLabel :=
  (items.filterMap Item.awaited?).find? fun l => .mark l ∉ items

/-- Only jumps are branches. -/
def Item.Sensible : Item → Prop
  | .instr i => i.target? = none
  | .jump i _ => i.target? ≠ none
  | .mark _ => True

section

variable {p q items : List Item} {item : Item} {l : JumpLabel}

theorem rawCode_append (p q : List Item) : rawCode (p ++ q) = rawCode p ++ rawCode q :=
  List.flatMap_append

theorem resolvedCode_append (target : JumpLabel → Nat) (p q : List Item) :
    resolvedCode target (p ++ q) = resolvedCode target p ++ resolvedCode target q :=
  List.flatMap_append

theorem length_resolvedCode (target : JumpLabel → Nat) (items : List Item) :
    (resolvedCode target items).length = (rawCode items).length := by
  induction items with
  | nil => rfl
  | cons item rest ih =>
    have hitem : (item.resolved target).length = item.raw.length := by cases item <;> rfl
    simp only [resolvedCode, rawCode, List.flatMap_cons, List.length_append, hitem] at ih ⊢
    rw [ih]

theorem resolvedCode_map_instr (target : JumpLabel → Nat) (code : List Instr) :
    resolvedCode target (code.map .instr) = code := by
  induction code with
  | nil => rfl
  | cons i rest ih => exact congrArg (i :: ·) ih

theorem rawCode_map_instr (code : List Instr) : rawCode (code.map .instr) = code := by
  induction code with
  | nil => rfl
  | cons i rest ih => exact congrArg (i :: ·) ih

theorem markedAt?_append (l : JumpLabel) (p q : List Item) :
    markedAt? l (p ++ q) =
      match markedAt? l q with
      | some k => some ((rawCode p).length + k)
      | none => markedAt? l p := by
  induction p with
  | nil =>
    cases hq : markedAt? l q <;> simp [rawCode, markedAt?, hq]
  | cons item rest ih =>
    simp only [List.cons_append, markedAt?, ih]
    cases markedAt? l q with
    | some k => simp [rawCode, Nat.add_assoc]
    | none => rfl

theorem markedAt?_cons_of_ne (h : item ≠ .mark l) (rest : List Item) :
    markedAt? l (item :: rest) = (markedAt? l rest).map (item.raw.length + ·) := by
  conv => lhs; unfold markedAt?
  cases markedAt? l rest with
  | some k => rfl
  | none => exact if_neg h

theorem markedAt?_cons_self (l : JumpLabel) (rest : List Item) :
    markedAt? l (.mark l :: rest) = some ((markedAt? l rest).getD 0) := by
  conv => lhs; unfold markedAt?
  cases markedAt? l rest with
  | some k => exact congrArg some (Nat.zero_add k)
  | none => exact if_pos rfl

/-- A label has a place exactly if it is marked. -/
theorem markedAt?_eq_none_iff : markedAt? l items = none ↔ .mark l ∉ items := by
  induction items with
  | nil => simp [markedAt?]
  | cons item rest ih =>
    rw [List.mem_cons, not_or, ← ih]
    by_cases hitem : item = .mark l
    · subst hitem
      simp [markedAt?_cons_self]
    · rw [markedAt?_cons_of_ne hitem, Option.map_eq_none_iff]
      exact ⟨fun h => ⟨Ne.symm hitem, h⟩, And.right⟩

theorem isNone_markedAt? : (markedAt? l items).isNone = decide (.mark l ∉ items) := by
  rw [Bool.eq_iff_iff, Option.isNone_iff_eq_none, markedAt?_eq_none_iff, decide_eq_true_eq]

theorem markedAt?_le {k : Nat} (h : markedAt? l items = some k) : k ≤ (rawCode items).length := by
  induction items generalizing k with
  | nil => cases h
  | cons item rest ih =>
    simp only [rawCode, List.flatMap_cons, List.length_append]
    by_cases hitem : item = .mark l
    · subst hitem
      rw [markedAt?_cons_self] at h
      obtain rfl := Option.some.inj h
      refine Nat.le_trans ?_ (Nat.le_add_left _ _)
      cases hrest : markedAt? l rest with
      | none => exact Nat.zero_le _
      | some j => exact ih hrest
    · rw [markedAt?_cons_of_ne hitem] at h
      obtain ⟨j, hj, rfl⟩ := Option.map_eq_some_iff.1 h
      exact Nat.add_le_add_left (ih hj) _

theorem waiting_append (index : Nat) (p q : List Item) :
    waiting index (p ++ q) = waiting index p ++ waiting (index + (rawCode p).length) q := by
  induction p generalizing index with
  | nil => rfl
  | cons item rest ih =>
    cases item with
    | instr i => simp [waiting, ih, rawCode, Item.raw, Nat.add_assoc, Nat.add_comm 1]
    | jump i l => simp [waiting, ih, rawCode, Item.raw, Nat.add_assoc, Nat.add_comm 1]
    | mark l => simp [waiting, ih, rawCode, Item.raw]

theorem map_snd_waiting (index : Nat) (items : List Item) :
    (waiting index items).map (·.2) = items.filterMap Item.awaited? := by
  induction items generalizing index with
  | nil => rfl
  | cons item rest ih =>
    cases item with
    | instr i => exact ih (index + 1)
    | jump i l => exact congrArg (l :: ·) (ih (index + 1))
    | mark l => exact ih index

/-- Every jump waits for a label with a mark if none is the first one that does not. -/
theorem unmarked?_eq_none_iff :
    unmarked? items = none ↔ ∀ i l, .jump i l ∈ items → markedAt? l items ≠ none := by
  simp only [unmarked?, List.find?_eq_none, List.mem_filterMap, decide_eq_true_eq, Classical.not_not,
    ne_eq, markedAt?_eq_none_iff]
  constructor
  · intro h i l hl
    exact h l ⟨.jump i l, hl, rfl⟩
  · rintro h l ⟨item, hitem, hl⟩
    cases item with
    | jump i m =>
      obtain rfl := Option.some.inj hl
      exact h i m hitem
    | instr i => cases hl
    | mark m => cases hl

end

/-! ### Frames with items in them -/

/-- A frame that still takes items holds exactly these. -/
structure Frame.Contains (f : Frame) (items : List Item) : Prop where
  phase : f.phase.rank ≤ Phase.emittingCode.rank
  body : f.body = rawCode items
  marks : ∀ l, f.marked? l = markedAt? l items
  jumps : f.jumps = waiting 0 items

theorem Frame.marked?_cons (f : Frame) (phase : Phase) (l m : JumpLabel) (index : Nat) :
    Frame.marked? { f with phase := phase, marks := (m, index) :: f.marks } l =
      if m = l then some index else f.marked? l := by
  by_cases h : m = l <;> simp [marked?, h]

/-- An instruction that is added to a frame stands behind the others. -/
theorem Frame.emit_eq {f : Frame} (h : f.phase.rank ≤ Phase.emittingCode.rank) (i : Instr) :
    f.emit i = .ok { f with phase := .emittingCode, body := f.body ++ [i] } := by
  unfold emit
  rw [advanceTo_of_le h]
  rfl

/-- Putting an item in adds it to the items of the frame, unless it is a jump without a branch. -/
theorem Frame.Contains.put {f : Frame} {items : List Item} (h : f.Contains items) {item : Item}
    (hitem : ∀ i l, item = .jump i l → i.target? ≠ none) :
    ∃ f', f.put item = .ok f' ∧ f'.Contains (items ++ [item]) ∧ f'.vars = f.vars ∧
      f'.phase = .emittingCode := by
  cases item with
  | instr i =>
    refine ⟨_, emit_eq h.phase i, ?_, rfl, rfl⟩
    constructor
    · exact Nat.le_refl _
    · simp [h.body, rawCode, Item.raw]
    · intro l
      exact (h.marks l).trans (by simp [markedAt?_append, markedAt?])
    · simp [h.jumps, waiting_append, waiting]
  | jump i l =>
    have hemit := emit_eq (f := { f with jumps := f.jumps ++ [(f.body.length, l)] }) h.phase i
    have hput : f.put (.jump i l) =
        Frame.emit { f with jumps := f.jumps ++ [(f.body.length, l)] } i := by
      simp only [Frame.put, jump]
      cases ht : i.target? with
      | none => exact absurd ht (hitem i l rfl)
      | some t => rfl
    refine ⟨_, hput.trans hemit, ?_, rfl, rfl⟩
    constructor
    · exact Nat.le_refl _
    · simp [h.body, rawCode, Item.raw]
    · intro m
      exact (h.marks m).trans (by simp [markedAt?_append, markedAt?])
    · simp [h.jumps, h.body, waiting_append, waiting]
  | mark l =>
    have hput : f.put (.mark l) =
        .ok { f with phase := .emittingCode, marks := (l, f.body.length) :: f.marks } := by
      simp only [Frame.put, mark, advanceTo_of_le h.phase]
      rfl
    refine ⟨_, hput, ?_, rfl, rfl⟩
    constructor
    · exact Nat.le_refl _
    · simp [h.body, rawCode, Item.raw]
    · intro m
      rw [marked?_cons, markedAt?_append, h.marks m, h.body]
      by_cases hlm : l = m <;> simp [markedAt?, hlm]
    · simp [h.jumps, waiting_append, waiting]

theorem Frame.Contains.putAll {f : Frame} {items : List Item} (h : f.Contains items)
    {more : List Item} (hmore : ∀ item ∈ more, item.Sensible) :
    ∃ f', f.putAll more = .ok f' ∧ f'.Contains (items ++ more) ∧ f'.vars = f.vars := by
  induction more generalizing f items with
  | nil => exact ⟨f, rfl, by simpa using h, rfl⟩
  | cons item rest ih =>
    obtain ⟨hitem, hrest⟩ := List.forall_mem_cons.1 hmore
    have hjump : ∀ i l, item = .jump i l → i.target? ≠ none := by
      rintro i l rfl
      exact hitem
    obtain ⟨f', hput, hf', hvars, -⟩ := h.put hjump
    obtain ⟨f'', hputAll, hf'', hvars'⟩ := ih hf' hrest
    refine ⟨f'', ?_, by simpa using hf'', hvars'.trans hvars⟩
    simp only [Frame.putAll, hput, bind, Except.bind]
    exact hputAll

/-! ### Patching -/

theorem modify_append {α : Type} (before after : List α) (a : α) (g : α → α) :
    (before ++ a :: after).modify before.length g = before ++ g a :: after := by
  induction before with
  | nil => rfl
  | cons b rest ih => exact congrArg (b :: ·) ih

theorem Instr.retarget_of_target?_eq_none {i : Instr} (h : i.target? = none) (g : Nat → Nat) :
    i.retarget g = i := by
  cases i <;> first | rfl | cases h

/-- A branch that gets a target gets it wherever it was shifted before. -/
theorem Instr.retarget_shift (i : Instr) (n target : Nat) :
    ((i.shift n).retarget fun _ => target) = i.retarget fun _ => target := by
  cases i <;> rfl

/-- A branch whose target is a word after all goes as much further as it was shifted. -/
theorem Instr.shift_eq_retarget {i : Instr} {n : Nat} (h : ∀ t ∈ i.target?, t + n < UInt64.size) :
    i.shift n = i.retarget (· + n) := by
  cases i with
  | branch t => exact congrArg branch (Nat.mod_eq_of_lt (h t rfl))
  | branchTrue t => exact congrArg branchTrue (Nat.mod_eq_of_lt (h t rfl))
  | branchFalse t => exact congrArg branchFalse (Nat.mod_eq_of_lt (h t rfl))
  | _ => rfl

/-- The instruction of an item behind so many others: the labels have their targets, and branches
    that were added like any other instruction are shifted. -/
def Item.shifted (target : JumpLabel → Nat) (shift : Nat) : Item → List Instr
  | .instr i => [i.shift shift]
  | .jump i l => [i.retarget fun _ => target l + shift]
  | .mark _ => []

/-- Patching gives every jump among the items the place of its label. -/
theorem Frame.patch_eq {f : Frame} {target : JumpLabel → Nat} (shift : Nat) (before : List Instr)
    {items : List Item} (h : ∀ i l, .jump i l ∈ items → f.marked? l = some (target l)) :
    f.patch shift (waiting before.length items)
        (before ++ (rawCode items).map (Instr.shift shift)) =
      .ok (before ++ items.flatMap (Item.shifted target shift)) := by
  induction items generalizing before with
  | nil => rfl
  | cons item rest ih =>
    have hrest : ∀ i l, .jump i l ∈ rest → f.marked? l = some (target l) := by
      intro i l hl
      exact h i l (List.mem_cons_of_mem item hl)
    cases item with
    | instr i =>
      have := ih (before ++ [i.shift shift]) hrest
      simpa [waiting, rawCode, Item.raw, Item.shifted] using this
    | jump i l =>
      have := ih (before ++ [i.retarget fun _ => target l + shift]) hrest
      have hl : f.marked? l = some (target l) := h i l (List.mem_cons_self ..)
      simpa [waiting, patch, hl, rawCode, Item.raw, Item.shifted, modify_append,
        Instr.retarget_shift] using this
    | mark l =>
      have := ih before hrest
      simpa [waiting, rawCode, Item.raw, Item.shifted] using this

/-- Patching ends at the first jump to a label without a mark. -/
theorem Frame.patch_eq_error {f : Frame} {l : JumpLabel} {jumps : List (Nat × JumpLabel)}
    (h : (jumps.map (·.2)).find? (fun l => (f.marked? l).isNone) = some l) (start : Nat)
    (body : List Instr) : f.patch start jumps body = .error (.unmarkedLabel l) := by
  induction jumps generalizing body with
  | nil => cases h
  | cons jump rest ih =>
    rw [List.map_cons, List.find?_cons] at h
    unfold patch
    cases hl : f.marked? jump.2 with
    | some target =>
      rw [hl] at h
      exact ih h _
    | none =>
      rw [hl] at h
      obtain rfl := Option.some.inj h
      rfl

/-! ### The finished method -/

/-- Where the labels of items are: behind their last marks. -/
def places (items : List Item) (l : JumpLabel) : Nat := (markedAt? l items).getD 0

/-- Where only jumps are branches, nothing but the targets of labels is shifted. -/
theorem shifted_of_sensible {items : List Item} (h : ∀ item ∈ items, item.Sensible)
    (target : JumpLabel → Nat) (shift : Nat) :
    items.flatMap (Item.shifted target shift) = resolvedCode (fun l => target l + shift) items := by
  induction items with
  | nil => rfl
  | cons item rest ih =>
    obtain ⟨hitem, hrest⟩ := List.forall_mem_cons.1 h
    have hhead : item.shifted target shift = item.resolved fun l => target l + shift := by
      cases item with
      | instr i => exact congrArg (· :: []) (Instr.retarget_of_target?_eq_none hitem _)
      | jump i l => rfl
      | mark l => rfl
    rw [List.flatMap_cons, ih hrest, hhead]
    rfl

/-- The instructions before those of the program: they bring the variables into their slots. -/
def opening (vars : List Variable) : List Instr := Frame.prologue 0 vars

/-- The instructions behind those of the program: they bring the variables back and return. -/
def closing (vars : List Variable) : List Instr :=
  Frame.epilogue 0 vars ++ [.loadLocal resultSlot, .ret]

/-- The method of items: their instructions between an opening and a closing. -/
def methodOf (vars : List Variable) (items : List Item) : Method :=
  ⟨opening vars ++
      resolvedCode (fun l => (markedAt? l items).getD 0 + (opening vars).length) items ++
      closing vars, vars⟩

/-- A frame is finished unless a jump waits for a label without a mark or there are too many
    variables; the first such label is reported. -/
theorem Frame.Contains.finalize_eq {f : Frame} {items : List Item} (h : f.Contains items) :
    f.finalize =
      match unmarked? items with
      | some l => .error (.unmarkedLabel l)
      | none =>
        if f.vars.length ≤ 2147483648 then
          .ok ⟨opening f.vars ++ items.flatMap (Item.shifted (places items) (opening f.vars).length) ++
            closing f.vars, f.vars⟩
        else
          .error (.invalidProgram .tooManyVariables) := by
  let patching : Frame := { f with phase := .patchingJumps }
  have hadvance : f.advanceTo .patchingJumps = .ok patching :=
    advanceTo_of_le (Nat.le_trans h.phase (by decide))
  have hmarks : ∀ l, patching.marked? l = markedAt? l items := h.marks
  unfold Frame.finalize
  rw [hadvance]
  simp only [bind, Except.bind]
  cases hu : unmarked? items with
  | some l =>
    have hfind : (patching.jumps.map (·.2)).find? (fun l => (patching.marked? l).isNone) = some l := by
      rw [show patching.jumps = waiting 0 items from h.jumps, map_snd_waiting]
      simp only [hmarks, isNone_markedAt?]
      exact hu
    rw [patch_eq_error hfind _]
  | none =>
    have hmarked : ∀ i l, .jump i l ∈ items → patching.marked? l = some (places items l) := by
      intro i l hl
      have hnone := unmarked?_eq_none_iff.1 hu i l hl
      rw [hmarks l, places]
      cases hk : markedAt? l items with
      | none => exact absurd hk hnone
      | some k => rfl
    have hpatch : patching.patch (prologue 0 patching.vars).length patching.jumps
        (patching.body.map (Instr.shift (prologue 0 patching.vars).length)) =
        .ok (items.flatMap (Item.shifted (places items) (opening f.vars).length)) := by
      rw [show patching.jumps = waiting 0 items from h.jumps,
        show patching.body = rawCode items from h.body]
      exact patch_eq _ [] hmarked
    rw [hpatch]
    rfl

/-- A frame with items in it is finished to their method when all jumps have labels to go to, unless
    there are too many variables. -/
theorem Frame.Contains.finalize {f : Frame} {items : List Item} (h : f.Contains items)
    (hsensible : ∀ item ∈ items, item.Sensible)
    (hjumps : ∀ i l, .jump i l ∈ items → markedAt? l items ≠ none) :
    f.finalize = if f.vars.length ≤ 2147483648 then .ok (methodOf f.vars items)
      else .error (.invalidProgram .tooManyVariables) := by
  rw [h.finalize_eq, unmarked?_eq_none_iff.2 hjumps]
  simp only [shifted_of_sensible hsensible]
  rfl

/-! ### Compiling -/

/-- The variables of a program always get their slots. -/
theorem exists_allocated (program : List Typed.Stmt) :
    ∃ f : Frame, allocateAll Frame.empty (program.flatMap stmtVariables) = .ok f ∧
      f.vars = slotted (program.flatMap stmtVariables) ∧ f.Contains [] := by
  obtain ⟨phase, hrank, hallocate⟩ := allocateAll_eq (f := Frame.empty) (Nat.zero_le 1)
    (program.flatMap stmtVariables)
  exact ⟨_, hallocate, rfl, Nat.le_trans hrank (by decide), rfl, fun _ => rfl, rfl⟩

/-- The frame in which the variables of a program have got their slots. -/
theorem exists_frame (program : List Typed.Stmt) :
    ∃ f : Frame, f.vars = slotted (program.flatMap stmtVariables) ∧ f.Contains [] ∧
      compile program = (do
        let items ← programItems f program
        let f' ← f.putAll items
        f'.finalize) := by
  obtain ⟨f, hallocate, hvars, hempty⟩ := exists_allocated program
  refine ⟨f, hvars, hempty, ?_⟩
  unfold compile
  rw [hallocate]
  rfl

/-- A program whose items are known is compiled to their method, unless it needs too many slots. -/
theorem compile_of_items {program : List Typed.Stmt} (items : Frame → List Item)
    (hitems : ∀ f : Frame, f.vars = slotted (program.flatMap stmtVariables) →
      programItems f program = .ok (items f) ∧ (∀ item ∈ items f, item.Sensible) ∧
        ∀ i l, .jump i l ∈ items f → markedAt? l (items f) ≠ none) :
    ∃ f : Frame, f.vars = slotted (program.flatMap stmtVariables) ∧
      compile program = if f.vars.length ≤ 2147483648 then .ok (methodOf f.vars (items f))
        else .error (.invalidProgram .tooManyVariables) := by
  obtain ⟨f, hvars, hempty, hcompile⟩ := exists_frame program
  obtain ⟨hprogram, hsensible, hjumps⟩ := hitems f hvars
  obtain ⟨f', hput, hf', hvars'⟩ := hempty.putAll hsensible
  have hfinal := hf'.finalize hsensible hjumps
  rw [hvars', List.nil_append] at hfinal
  refine ⟨f, hvars, hcompile.trans ?_⟩
  simp only [bind, Except.bind, hprogram, hput]
  exact hfinal

end SnippetLang.Code

import SnippetLang.Proofs.Compilation.Agreement
import SnippetLang.Proofs.Machines.Effects
import SnippetLang.Proofs.Machines.Heights

/-!
# The stack of a run

Whenever a machine comes to an instruction of the method of a clean snippet, by whatever branches, its
stack is as high as the straight line through the instructions says.  So it never takes anything off
an empty stack, and its stack is never higher than the method declares.

That a straight line says something about branches at all is a property of methods, which those of
balanced items have; it carries the heights from one step of a machine to the next.
-/

namespace SnippetLang

namespace Code

open Machine (step)
open Typed

/-- The straight line through a method is right about branches: no instruction takes more than is
    there, a branch leaves nothing on the stack and goes on where nothing is on it, and the closing
    begins with nothing on it. -/
structure Method.Level (method : Method) : Prop where
  enough : ∀ (k : Nat) (i : Instr), method.instructions[k]? = some i →
    i.effect.1 ≤ method.heightAt k
  leaves : ∀ (k : Nat) (i : Instr) (t : Nat), method.instructions[k]? = some i →
    i.target? = some t → method.heightAt (k + 1) = 0
  target : ∀ (k : Nat) (i : Instr) (t : Nat), method.instructions[k]? = some i →
    i.target? = some t → method.heightAt t = 0
  closing : method.heightAt (method.instructions.length - (closing method.vars).length) = 0

/-! ### Methods of balanced items -/

section

variable {vars : List Variable} {items : List Item} {k t : Nat} {i : Instr}

/-- The items of a whole method, its opening and its closing included. -/
def wholeItems (vars : List Variable) (items : List Item) : List Item :=
  (opening vars).map .instr ++ items ++ (closing vars).map .instr

/-- Where jumps to a label go on in the whole method. -/
def landing (vars : List Variable) (items : List Item) (l : JumpLabel) : Nat :=
  (markedAt? l items).getD 0 + (opening vars).length

theorem instructions_methodOf (vars : List Variable) (items : List Item) :
    (methodOf vars items).instructions =
      resolvedCode (landing vars items) (wholeItems vars items) := by
  simp only [wholeItems, resolvedCode_append, resolvedCode_map_instr]
  rfl

theorem balanced_opening (h : Balanced 0 items 0) :
    Balanced 0 ((opening vars).map .instr ++ items) 0 :=
  (balanced_of_raise? (raise?_prologue 0 vars)).append h

theorem balanced_wholeItems (h : Balanced 0 items 0) : Balanced 0 (wholeItems vars items) 0 := by
  have hclosing : raise? 0 (closing vars) = some 0 := raise?_append (raise?_epilogue 0 vars) rfl
  exact (balanced_opening h).append (balanced_of_raise? hclosing)

theorem sensible_wholeItems (h : ∀ item ∈ items, item.Sensible) :
    ∀ item ∈ wholeItems vars items, item.Sensible :=
  List.forall_mem_append.2 ⟨List.forall_mem_append.2
    ⟨sensible_map_instr (straight_prologue 0 vars), h⟩, sensible_map_instr (straight_closing vars)⟩

theorem mem_of_jump_mem_wholeItems {l : JumpLabel} (h : .jump i l ∈ wholeItems vars items) :
    .jump i l ∈ items := by
  simpa [wholeItems] using h

theorem markedAt?_wholeItems {l : JumpLabel} (h : markedAt? l items ≠ none) :
    markedAt? l (wholeItems vars items) = some (landing vars items l) := by
  obtain ⟨k, hk⟩ := Option.ne_none_iff_exists'.1 h
  have hopening : markedAt? l ((opening vars).map .instr ++ items) =
      some (landing vars items l) := by
    rw [markedAt?_append, hk, rawCode_map_instr, landing, hk, Nat.add_comm]
    rfl
  rw [wholeItems, markedAt?_append, markedAt?_map_instr]
  exact hopening

/-- The method of balanced items whose jumps have labels to go to is level. -/
theorem level_methodOf (h : Balanced 0 items 0) (hsensible : ∀ item ∈ items, item.Sensible)
    (hmarked : ∀ i l, .jump i l ∈ items → markedAt? l items ≠ none) :
    (methodOf vars items).Level := by
  have hwhole : Balanced 0 (wholeItems vars items) 0 := balanced_wholeItems h
  have hcode := instructions_methodOf vars items
  have hbranch : ∀ (k : Nat) (i : Instr) (t : Nat),
      (methodOf vars items).instructions[k]? = some i → i.target? = some t →
        (methodOf vars items).heightAt (k + 1) = 0 ∧ (methodOf vars items).heightAt t = 0 := by
    intro k i t hi ht
    unfold Method.heightAt
    rw [hcode] at hi ⊢
    obtain ⟨⟨j, l, hl, rfl⟩, hleaves⟩ := hwhole.branch (sensible_wholeItems hsensible) hi ht
    have hlanding : markedAt? l (wholeItems vars items) = some (landing vars items l) :=
      markedAt?_wholeItems (hmarked j l (mem_of_jump_mem_wholeItems hl))
    exact ⟨hleaves, hwhole.marked hlanding⟩
  constructor
  · intro k i hi
    unfold Method.heightAt
    rw [hcode] at hi ⊢
    exact hwhole.enough hi
  · exact fun k i t hi ht => (hbranch k i t hi ht).1
  · exact fun k i t hi ht => (hbranch k i t hi ht).2
  · have hbefore : (methodOf vars items).heightAt
        ((methodOf vars items).instructions.length - (closing vars).length) =
          heightAfter 0 (resolvedCode (landing vars items) ((opening vars).map .instr ++ items)) := by
      rw [Method.heightAt, hcode, wholeItems, resolvedCode_append _ (_ ++ _),
        resolvedCode_map_instr, List.length_append, Nat.add_sub_cancel, List.take_left]
    exact hbefore.trans ((balanced_opening h).heightAfter_eq _)

end

/-- The method of an executable program is level, with its results marked or not. -/
theorem level_of_compile (style : Style) {program : List Stmt} {method : Method}
    (h : ExecutableIn program program) (hmethod : compile (style.program program) = .ok method) :
    method.Level := by
  obtain ⟨f, hvars, hcompile⟩ := style.compile_eq h
  have hcovers : Covers f.vars program := hvars ▸ covers_slotsOf program
  rw [hmethod] at hcompile
  split at hcompile
  · obtain rfl := Except.ok.inj hcompile
    exact level_methodOf (balanced_blocks h hcovers) (Style.sensible_blocks h hcovers)
      fun i l => Style.marked_of_jump h
  · cases hcompile

/-! ### Runs of level methods -/

/-- The end of a run whose stack was never empty where something was asked for, and is no higher than
    the method declares. -/
inductive Method.Kept (method : Method) : Machine.Ending → Prop where
  | ok {v : Value} {m : Machine} : m.stack.length ≤ method.maxStack → Kept method (.ok v m)
  | error {e : RunError} {m : Machine} : e ≠ .underflow → m.stack.length ≤ method.maxStack →
      Kept method (.error e m)

namespace Method

variable {method : Method} {m m' : Machine} {i : Instr}

theorem heightAt_le (method : Method) (k : Nat) : method.heightAt k ≤ method.maxStack :=
  method.isGreatest_maxStack.2 ⟨k, rfl⟩

/-- An instruction that was executed takes the stack to the height of the next index. -/
theorem height_of_executed {answer : Option Value} (hi : method.instructions[m.index]? = some i)
    (hm : m.stack.length = method.heightAt m.index)
    (h : Machine.Executed i { m with index := m.index + 1 } answer m') :
    m'.stack.length = method.heightAt (m.index + 1) := by
  calc m'.stack.length = m.stack.length - i.effect.1 + i.effect.2 := h.height
    _ = method.heightAt m.index - i.effect.1 + i.effect.2 := by rw [hm]
    _ = method.heightAt (m.index + 1) := (heightAfter_take_succ hi 0).symm

namespace Level

/-- A machine whose stack is as high as the straight line says goes on to one of which that is true
    as well. -/
theorem height_of_step (h : method.Level) (hm : m.stack.length = method.heightAt m.index)
    (hstep : step method m = .running m') : m'.stack.length = method.heightAt m'.index := by
  have hstepped := Machine.stepped method m
  rw [hstep] at hstepped
  cases hstepped with
  | @runs i _ hi hexecuted =>
    have hheight := height_of_executed hi hm hexecuted
    rcases hexecuted.index with hnext | htarget
    · rw [hheight, hnext]
    · rw [hheight, h.leaves m.index i m'.index hi htarget, h.target m.index i m'.index hi htarget]

/-- A run that ends in such a machine never took anything off an empty stack. -/
theorem kept_of_finished (h : method.Level) (hm : m.stack.length = method.heightAt m.index)
    {c : Machine.Ending} (hstep : step method m = .finished c) : method.Kept c := by
  have hstepped := Machine.stepped method m
  rw [hstep] at hstepped
  cases hstepped with
  | ranPast _ => exact .error nofun (hm ▸ method.heightAt_le m.index)
  | returns hi hexecuted =>
    exact .ok (height_of_executed hi hm hexecuted ▸ method.heightAt_le (m.index + 1))
  | @breaks i _ _ hi hbroke =>
    refine .error (fun he => ?_) (Nat.le_trans hbroke.height (hm ▸ method.heightAt_le m.index))
    have hless : m.stack.length < i.effect.1 := hbroke.underflow he
    rw [hm] at hless
    exact Nat.lt_irrefl _ (Nat.lt_of_lt_of_le hless (h.enough m.index i hi))

/-- On every machine of a run the stack is as high as the straight line says. -/
theorem height_of_reaches (h : method.Level) {σ : Store}
    (hm : Reaches (step method) (method.start σ) m) :
    m.stack.length = method.heightAt m.index := by
  obtain ⟨n, hn⟩ := hm
  exact hn.keeps (fun _ _ => h.height_of_step) rfl

theorem kept_of_endsWith (h : method.Level) {σ : Store} {c : Machine.Ending}
    (hc : EndsWith (step method) (method.start σ) c) : method.Kept c := by
  obtain ⟨m, hm, hstep⟩ := hc.reaches
  exact h.kept_of_finished (h.height_of_reaches hm) hstep

end Level

end Method

end Code

namespace Snippet

open Code.Machine (step)

variable {s : Snippet} {method : Code.Method}

/-- The stack of the compiled code of a clean snippet, with its results marked or not.  The straight
    line through the method is right about its branches, and the method declares the greatest height
    on it; the stack of every machine that a run reaches is as high as the line says, and so no higher
    than the method declares; and no run ends because the stack is empty. -/
theorem stack_discipline (h : s.Clean)
    (hmethod : Code.compile s.lowered = .ok method ∨ Code.compile s.marked = .ok method)
    (σ : Store) :
    method.Level ∧ IsGreatest (Set.range method.heightAt) method.maxStack ∧
    (∀ m, Reaches (step method) (method.start σ) m →
      m.stack.length = method.heightAt m.index ∧ m.stack.length ≤ method.maxStack) ∧
    ∀ c, EndsWith (step method) (method.start σ) c → method.Kept c := by
  have hlevel : method.Level := by
    rcases hmethod with hmethod | hmethod
    · exact Code.level_of_compile .dropping h.executable hmethod
    · exact Code.level_of_compile .keeping h.executable hmethod
  refine ⟨hlevel, method.isGreatest_maxStack, fun m hm => ?_, fun c => hlevel.kept_of_endsWith⟩
  have hheight := hlevel.height_of_reaches hm
  exact ⟨hheight, hheight ▸ method.heightAt_le m.index⟩

/-- Three cells are enough for a loop that writes differences, whatever its variables are bound to. -/
theorem stack_discipline_loop :
    let s := (first "var a = 2").next "for i = 1 to a print(string(a - i))"
    ∃ method, Code.compile s.marked = .ok method ∧ ∀ σ m,
      Reaches (step method) (method.start σ) m → m.stack.length ≤ 3 := by
  intro s
  have h : s.Clean := .next (.first (by decide +kernel)) (by decide +kernel)
  have hshown : (Code.compile s.marked).toOption.map (·.maxStack) = some 3 := by decide +kernel
  obtain ⟨method, hmethod, hmax⟩ := Option.map_eq_some_iff.1 hshown
  have hmarked : Code.compile s.marked = .ok method := by
    cases hcompile : Code.compile s.marked with
    | error e => cases hcompile ▸ hmethod
    | ok m => cases hcompile ▸ hmethod; rfl
  refine ⟨method, hmarked, fun σ m hm => ?_⟩
  obtain ⟨-, -, hheights, -⟩ := stack_discipline h (.inr hmarked) σ
  exact hmax ▸ (hheights m hm).2

end Snippet

end SnippetLang

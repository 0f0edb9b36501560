import SnippetLang.Proofs.Compilation.Simulation

/-!
# Statements and their blocks

The walk and the machine of a program whose results are marked.  While the walk stands at a statement,
the machine stands at the block of the statement with nothing on its stack, its slots hold the
variables as the walk has them, and the result slot holds the last value.  This is the style that
keeps the values of statements.
-/

namespace SnippetLang.Code

open Machine (step)
open Typed

/-- A stage is set for an executable program: it has the method that the program is compiled to. -/
structure Compiled (f : Frame) (program : List Stmt) (S : Stage) : Prop where
  executable : ExecutableIn program program
  vars : f.vars = slotsOf program
  method : S.method = methodOf (slotsOf program) (blocks f program)
  arguments : S.arguments.length = (slotsOf program).length
  fits : (slotsOf program).length ≤ 2147483648

/-- The index in the method at which the block of a statement begins. -/
def blockIndex (f : Frame) (program : List Stmt) (i : Nat) : Nat :=
  (opening (slotsOf program)).length + offset f program i

/-- The index in the method that jumps to a label go to. -/
def jumpIndex (f : Frame) (program : List Stmt) (l : JumpLabel) : Nat :=
  (markedAt? l (blocks f program)).getD 0 + (opening (slotsOf program)).length

namespace Compiled

variable {f : Frame} {program : List Stmt} {S : Stage} {i : Nat} {s : Stmt}

theorem keeping (h : Compiled f program S) : Style.keeping.Compiled f program S :=
  ⟨h.executable, h.vars, h.method, h.arguments, h.fits⟩

theorem of_keeping (h : Style.keeping.Compiled f program S) : Compiled f program S :=
  ⟨h.executable, h.vars, h.method, h.arguments, h.fits⟩

theorem vars_eq (h : Compiled f program S) : S.method.vars = slotsOf program := h.keeping.vars_eq

theorem distinct (h : Compiled f program S) : Distinct S.method.vars := h.keeping.distinct

theorem frame_vars (h : Compiled f program S) : f.vars = S.method.vars := h.keeping.frame_vars

theorem instructions (h : Compiled f program S) :
    S.method.instructions = opening (slotsOf program) ++
      resolvedCode (jumpIndex f program) (blocks f program) ++ closing (slotsOf program) :=
  h.keeping.instructions

theorem blockIndex_length (f : Frame) (program : List Stmt) :
    blockIndex f program program.length =
      (opening (slotsOf program) ++
        resolvedCode (jumpIndex f program) (blocks f program)).length := by
  show Style.keeping.blockIndex f program program.length = _
  exact Style.Compiled.blockIndex_length

theorem placed_block (h : Compiled f program S) (hs : program[i]? = some s) :
    Placed S.method.instructions (blockIndex f program i)
      (resolvedCode (jumpIndex f program) (block f s)) := h.keeping.placed_block hs

theorem blockIndex_succ (hs : program[i]? = some s) :
    blockIndex f program (i + 1) =
      blockIndex f program i + (resolvedCode (jumpIndex f program) (block f s)).length := by
  show Style.keeping.blockIndex f program (i + 1) = _
  exact Style.Compiled.blockIndex_succ hs

theorem hasSlot (h : Compiled f program S) (hs : s ∈ program) :
    ∀ x ∈ stmtVariables s, HasSlot f.vars x := h.keeping.hasSlot hs

end Compiled

/-! ### Walks and machines side by side -/

/-- A machine stands where a walk stands, and the walk has kept to the types and to the variables of
    the program. -/
structure Related (f : Frame) (program : List Stmt) (S : Stage) (start : Store)
    (state : Walk.Place × Store) (m : Machine) : Prop where
  place : state.1.index ≤ program.length
  sound : state.2.Typed
  outside : SameOutside (slotsOf program) start state.2
  machine : m = S.machine (resultCell state.1.last) (blockIndex f program state.1.index) [] state.2

/-- The end of a machine is that of a walk: the same value or error, the same console, and after a
    value the variables of the walk in the arguments. -/
inductive Matches (vars : List Variable) (start : Store) : Outcome → Machine.Ending → Prop where
  | ok {v : Value} {τ : Store} {m : Machine} :
      m.arguments = vars.map τ.bindings.read → m.console = τ.console → τ.Typed →
      SameOutside vars start τ → Matches vars start (.ok v τ) (.ok v m)
  | error {error : RunError} {τ : Store} {m : Machine} :
      m.console = τ.console → Matches vars start (.error error τ) (.error error m)

/-- What a step of a walk leads to is answered by a machine: by a chain to where the walk goes on,
    as long as the block, which is further on in the program if the chain is empty, or by a run to a
    matching end. -/
inductive Answered (f : Frame) (program : List Stmt) (S : Stage) (start : Store) (i : Nat)
    (m : Machine) : Progress (Walk.Place × Store) Outcome → Prop where
  | running {next : Walk.Place × Store} {k : Nat} {m' : Machine} :
      Through (step S.method) (Carries S.method.vars) k m m' →
      blockIndex f program (i + 1) = blockIndex f program i + k →
      Related f program S start next m' →
      (k = 0 → program.length - next.1.index < program.length - i) →
      Answered f program S start i m (.running next)
  | finished {o : Outcome} {k : Nat} {c : Machine.Ending} :
      EndsThrough (step S.method) (Carries S.method.vars) k m c →
      Matches (slotsOf program) start o c → Answered f program S start i m (.finished o)

section

variable {f : Frame} {program : List Stmt} {S : Stage} {start σ : Store} {m : Machine}
  {state : Walk.Place × Store} {vars : List Variable} {o : Outcome} {c : Machine.Ending}

theorem Related.keeping (h : Related f program S start state m) :
    Style.keeping.Related f program S start state m :=
  ⟨h.place, h.sound, h.outside, h.machine⟩

theorem Related.of_keeping (h : Style.keeping.Related f program S start state m) :
    Related f program S start state m :=
  ⟨h.place, h.sound, h.outside, h.machine⟩

theorem Matches.of_keeping (h : Style.keeping.Matches vars start o c) : Matches vars start o c := by
  cases h with
  | ok harguments hconsole hτ houtside => exact .ok harguments hconsole hτ houtside
  | error hconsole => exact .error hconsole

theorem answered (h : Compiled f program S) (hrel : Related f program S start state m) :
    Answered f program S start state.1.index m (Walk.step program state) := by
  have hanswered := Style.answered h.keeping hrel.keeping
  generalize Walk.step program state = next at hanswered ⊢
  cases hanswered with
  | running hthrough hnext hrelated hrank =>
    exact .running hthrough hnext (.of_keeping hrelated) hrank
  | finished hends hmatch => exact .finished hends (.of_keeping hmatch)

theorem simulation (h : Compiled f program S) (start : Store) :
    Simulation (Walk.step program) (step S.method) (Related f program S start)
      (Matches (slotsOf program) start) (Carries S.method.vars)
      (fun state => program.length - state.1.index) := by
  have hkeeping := Style.simulation h.keeping start
  constructor
  · intro state next m hrel hstep
    obtain ⟨k, m', hthrough, hnext, hrank⟩ := hkeeping.running hrel.keeping hstep
    exact ⟨k, m', hthrough, .of_keeping hnext, hrank⟩
  · intro state m o hrel hstep
    obtain ⟨k, c, hends, hmatch⟩ := hkeeping.finished hrel.keeping hstep
    exact ⟨k, c, hends, .of_keeping hmatch⟩

end

end SnippetLang.Code

import SnippetLang.Proofs.Compilation.Agreement

/-!
# Result marks are transparent

Compiling the flat program of a snippet with its results marked, or as it is, makes two different
methods: the second drops the values that the first one keeps, and every branch goes elsewhere.  They
work on the same variables all the same, and their runs cannot be told apart but for the value that
they return, because both go beside the same walk.
-/

namespace SnippetLang

/-- The end of a run without the value that it returned. -/
def Outcome.silenced : Outcome → Outcome
  | .ok _ τ => .ok .void τ
  | .error e τ => .error e τ

namespace Code

open Machine (step)
open Typed

section

variable {vars : List Variable} {σ : Store} {o : Outcome} {method method' : Method}
  {c c' : Machine.Ending}

/-- Ends of both styles that match one walk are the same, but for the value that is dropped. -/
theorem outcome_of_matches (hvars : method.vars = vars) (hvars' : method'.vars = vars)
    (h : Style.dropping.Matches vars σ o c) (h' : Style.keeping.Matches vars σ o c') :
    method.outcome σ c = (method'.outcome σ c').silenced := by
  cases h with
  | @ok v τ m harguments hconsole _ _ =>
    cases h' with
    | @ok _ _ m' harguments' hconsole' _ _ =>
      simp only [Method.outcome, Outcome.silenced, hvars, hvars', harguments, harguments',
        hconsole, hconsole']
      rfl
  | error hconsole =>
    cases h' with
    | error hconsole' =>
      simp only [Method.outcome, Outcome.silenced, hconsole, hconsole']

end

/-- A method goes beside another one and says nothing: it works on the same variables, its runs from
    a store end if and only if those of the other one do, and then in the same way, with the same
    bindings and the same console, except that it returns no value. -/
structure Method.Silences (silent method : Method) (σ : Store) : Prop where
  vars : silent.vars = method.vars
  ends : (∃ n o, silent.run σ n = some o) ↔ ∃ n o, method.run σ n = some o
  outcome : ∀ {n n' : Nat} {o o' : Outcome},
    silent.run σ n = some o → method.run σ n' = some o' → o = o'.silenced

section

variable {program : List Stmt} {σ : Store} {style : Style} {f : Frame} {S : Stage} {m : Machine}

theorem Style.Opened.exists_run_iff (h : style.Opened f program S σ m) :
    (∃ n o, S.method.run σ n = some o) ↔
      ∃ n o, runFor (Walk.step program) n (Walk.Place.start, σ) = some o := by
  constructor
  · rintro ⟨n, o, ho⟩
    obtain ⟨c, hc, -⟩ := Option.map_eq_some_iff.1 ho
    obtain ⟨o, ⟨k, hk⟩, -⟩ := h.backward ⟨n, hc⟩
    exact ⟨k, o, hk⟩
  · rintro ⟨n, o, ho⟩
    obtain ⟨c, ⟨k, hk⟩, -⟩ := h.forward ⟨n, ho⟩
    refine ⟨k, S.method.outcome σ c, ?_⟩
    rw [Method.run, hk]
    rfl

/-- A run ends with the value that the style returns, if the walk beside it ends with a value. -/
theorem Style.Opened.walk_of_run (h : style.Opened f program S σ m) {n : Nat} {v : Value} {τ : Store}
    (hrun : S.method.run σ n = some (.ok v τ)) :
    ∃ k w τ', runFor (Walk.step program) k (Walk.Place.start, σ) = some (.ok w τ') ∧
      v = style.returned w := by
  obtain ⟨c, hc, hend⟩ := Option.map_eq_some_iff.1 hrun
  obtain ⟨o, ⟨k, hk⟩, hmatch⟩ := h.backward ⟨n, hc⟩
  cases hmatch with
  | @ok w τ' m' _ _ _ _ =>
    cases hend
    exact ⟨k, w, τ', hk, rfl⟩
  | error _ => cases hend

/-- The method of an executable program silences that of the program with its results marked. -/
theorem silences_of_opened {f' : Frame} {S' : Stage} {m' : Machine}
    (h : Style.dropping.Opened f program S σ m) (h' : Style.keeping.Opened f' program S' σ m') :
    S.method.Silences S'.method σ where
  vars := h.compiled.vars_eq.trans h'.compiled.vars_eq.symm
  ends := h.exists_run_iff.trans h'.exists_run_iff.symm
  outcome := by
    intro n n' o o' ho ho'
    obtain ⟨c, hc, rfl⟩ := Option.map_eq_some_iff.1 ho
    obtain ⟨c', hc', rfl⟩ := Option.map_eq_some_iff.1 ho'
    obtain ⟨w, hw, hmatch⟩ := h.backward ⟨n, hc⟩
    obtain ⟨d, hd, hmatch'⟩ := h'.forward hw
    obtain rfl := hd.unique ⟨n', hc'⟩
    exact outcome_of_matches h.compiled.vars_eq h'.compiled.vars_eq hmatch hmatch'

end

end Code

namespace Snippet

variable {s : Snippet} {σ : Store}

/-- Marking the results of a clean snippet is transparent.  The flat program is compiled with its
    results marked and without, unless it has too many slots, and is refused in the same way for
    that.  The method without marks silences the one with marks, which returns what the walk
    answers. -/
theorem marks_transparent (h : s.Clean) (hσ : σ.bindings.Typed) :
    (s.slots.length ≤ 2147483648 →
      ∃ silent method, Code.compile s.lowered = .ok silent ∧ Code.compile s.marked = .ok method) ∧
    (∀ e, Code.compile s.lowered = .error e ↔ Code.compile s.marked = .error e) ∧
    ∀ silent method, Code.compile s.lowered = .ok silent → Code.compile s.marked = .ok method →
      silent.Silences method σ ∧
      ((∃ n o, method.run σ n = some o) ↔ ∃ n a, s.evaluate .treeWalk σ n = some a) ∧
      ∀ n v τ, method.run σ n = some (.ok v τ) →
        ∃ k τ', s.evaluate .treeWalk σ k = some (.ended (.ok v τ')) := by
  obtain ⟨f, -, hlowered⟩ := Code.Style.dropping.compile_eq h.executable
  obtain ⟨f', -, hmarked⟩ := Code.Style.keeping.compile_eq h.executable
  have hstore : σ.Typed := ⟨hσ, False.elim⟩
  refine ⟨fun hfits => ⟨_, _, hlowered.trans (if_pos hfits), hmarked.trans (if_pos hfits)⟩, ?_⟩
  by_cases hfits : (Code.slotsOf s.lowered).length ≤ 2147483648
  · rw [if_pos hfits] at hlowered hmarked
    refine ⟨fun e => ?_, fun silent method hsilent hmethod => ?_⟩
    · constructor
      · exact fun he => nomatch hlowered.symm.trans he
      · exact fun he => nomatch hmarked.symm.trans he
    · obtain ⟨g, S, m, hopened⟩ := Code.Style.dropping.exists_opened h.executable hfits hstore
      obtain ⟨g', S', m', hopened'⟩ := Code.Style.keeping.exists_opened h.executable hfits hstore
      obtain rfl := Except.ok.inj (hopened.method.symm.trans hsilent)
      obtain rfl := Except.ok.inj (hopened'.method.symm.trans hmethod)
      refine ⟨Code.silences_of_opened hopened hopened', ?_, fun n v τ hrun => ?_⟩
      · rw [hopened'.exists_run_iff]
        simp only [h.evaluate_treeWalk, Option.map_eq_some_iff]
        exact ⟨fun ⟨n, o, ho⟩ => ⟨n, _, o, ho, rfl⟩, fun ⟨n, _, o, ho, _⟩ => ⟨n, o, ho⟩⟩
      · obtain ⟨k, w, τ', hwalk, rfl⟩ := hopened'.walk_of_run hrun
        refine ⟨k, τ', ?_⟩
        rw [h.evaluate_treeWalk, hwalk]
        rfl
  · rw [if_neg hfits] at hlowered hmarked
    refine ⟨fun e => ?_, fun silent method hsilent _ => ?_⟩
    · exact ⟨fun he => hmarked.trans (hlowered.symm.trans he),
        fun he => hlowered.trans (hmarked.symm.trans he)⟩
    · cases hlowered.symm.trans hsilent

/-- The last value of a loop behind a declaration is returned with marks and dropped without them,
    and both methods leave the same bindings and the same console. -/
theorem marks_transparent_loop :
    let s := (first "var a = 2").next "for i = 1 to a print(string(a - i))"
    let σ : Store := ⟨Bindings.empty.set ⟨"a", false, .int⟩ (.int 2), Console.start [] fun _ => 0⟩
    ∃ silent method n τ, Code.compile s.lowered = .ok silent ∧ Code.compile s.marked = .ok method ∧
      silent.run σ n = some (.ok .void τ) ∧ method.run σ 150 = some (.ok (.int 3) τ) ∧
      τ.console.output = "1\n0\n" := by
  intro s σ
  have h : s.Clean := .next (.first (by decide +kernel)) (by decide +kernel)
  have hempty : Bindings.empty.Typed := nofun
  have hσ : σ.bindings.Typed := hempty.set rfl
  obtain ⟨hcompiles, -, hruns⟩ := marks_transparent h hσ
  obtain ⟨silent, method, hsilent, hmarked⟩ := hcompiles (by decide +kernel)
  have hshown : (Code.compile s.marked).toOption.bind (fun method =>
      (method.run σ 150).map fun o => (o.value?, o.store.console.output)) =
        some (some (.int 3), "1\n0\n") := by decide +kernel
  rw [hmarked] at hshown
  obtain ⟨o, ho, hshown⟩ := Option.map_eq_some_iff.1 hshown
  obtain ⟨hvalue, houtput⟩ := Prod.mk.inj hshown
  obtain ⟨hsilences, -, -⟩ := hruns silent method hsilent hmarked
  obtain ⟨n, o', ho'⟩ := hsilences.ends.2 ⟨150, o, ho⟩
  obtain rfl := hsilences.outcome ho' ho
  cases o with
  | error e τ => cases hvalue
  | ok v τ =>
    cases hvalue
    exact ⟨silent, method, n, τ, hsilent, hmarked, ho', ho, houtput⟩

end Snippet

end SnippetLang

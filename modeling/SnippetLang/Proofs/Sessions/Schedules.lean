import Mathlib
import SnippetLang.Proofs.Safety.Soundness
import SnippetLang.Session

/-!
# Schedules

A session is played by evaluating its snippets in some order, each as often as one likes and each in
either way.  The two ways leave different bindings behind: a compiled method gives a value to every
variable of its snippet, a walk only to those that it comes across.  Bindings that read alike are as
good as equal, however, because a compiled method reads all of its variables before it does anything
else.  So a method runs alike on stores that read alike, and a walk goes beside the method.

Where there is no method, because a snippet is too crowded for one, only walks play the session.
-/

namespace SnippetLang

/-! ### Stores that read alike -/

/-- Two stores have the same console, and every variable reads the same in both. -/
structure Store.Alike (σ τ : Store) : Prop where
  console : σ.console = τ.console
  reads : ∀ x, σ.bindings.read x = τ.bindings.read x

namespace Outcome.Indistinguishable

variable {o o' o'' : Outcome}

theorem symm (h : o.Indistinguishable o') : o'.Indistinguishable o := by
  cases h with
  | ok hconsole hreads => exact .ok hconsole.symm fun x => (hreads x).symm
  | error hconsole => exact .error hconsole.symm

theorem trans (h : o.Indistinguishable o') (h' : o'.Indistinguishable o'') :
    o.Indistinguishable o'' := by
  cases h with
  | ok hconsole hreads =>
    cases h' with
    | ok hconsole' hreads' =>
      exact .ok (hconsole.trans hconsole') fun x => (hreads x).trans (hreads' x)
  | error hconsole =>
    cases h' with
    | error hconsole' => exact .error (hconsole.trans hconsole')

end Outcome.Indistinguishable

theorem Bindings.read_setAll_congr {b b' : Bindings} (h : ∀ x, b.read x = b'.read x)
    (pairs : List (Variable × Value)) (x : Variable) :
    (b.setAll pairs).read x = (b'.setAll pairs).read x := by
  induction pairs generalizing b b' with
  | nil => exact h x
  | cons pair rest ih =>
    apply ih
    intro y
    rw [Bindings.read_set, Bindings.read_set, h y]

namespace Code.Method

variable {method : Method} {σ τ : Store}

theorem start_congr (h : σ.Alike τ) : method.start σ = method.start τ := by
  have hreads : σ.bindings.read = τ.bindings.read := funext h.reads
  unfold start
  rw [h.console, hreads]

theorem outcome_congr (h : σ.Alike τ) (c : Machine.Ending) :
    (method.outcome σ c).Indistinguishable (method.outcome τ c) := by
  cases c with
  | ok v final => exact .ok rfl (Bindings.read_setAll_congr h.reads _)
  | error e final => exact .error rfl

end Code.Method

/-! ### Evaluating a snippet on stores that read alike -/

namespace Snippet

variable {s : Snippet} {σ τ : Store} {backend : Backend} {n : Nat} {a : Evaluation}

/-- An evaluation does not depend on how many steps were left over. -/
theorem evaluate_unique {m : Nat} {b : Evaluation} (ha : s.evaluate backend σ n = some a)
    (hb : s.evaluate backend σ m = some b) : a = b := by
  unfold evaluate at ha hb
  split at ha
  · rw [if_pos ‹_›] at hb
    cases hexecution : s.execution backend σ with
    | ok execution =>
      rw [hexecution] at ha hb
      obtain ⟨o, ho, rfl⟩ := Option.map_eq_some_iff.1 ha
      obtain ⟨o', ho', rfl⟩ := Option.map_eq_some_iff.1 hb
      have heq : o = o' := EndsWith.unique ⟨n, ho⟩ ⟨m, ho'⟩
      rw [heq]
    | error e =>
      rw [hexecution] at ha hb
      exact Option.some.inj (ha.symm.trans hb)
  · rw [if_neg ‹_›] at hb
    exact Option.some.inj (ha.symm.trans hb)

namespace Clean

variable {method : Code.Method}

theorem exists_opened (h : s.Clean) (hfits : s.slots.length ≤ 2147483648) (hσ : σ.Typed)
    (hmethod : s.method = .ok method) :
    ∃ f S m, S.method = method ∧ method.vars = s.slots ∧ Code.Opened f s.lowered S σ m := by
  obtain ⟨f, S, m, hopened⟩ := Code.exists_opened_of_typed h.executable hfits hσ
  obtain rfl : S.method = method := Except.ok.inj (hopened.method.symm.trans hmethod)
  exact ⟨f, S, m, rfl, hopened.compiled.vars_eq, hopened⟩

/-- Whichever way a snippet is evaluated, its compiled method runs to the same end. -/
theorem machine_of_evaluate (h : s.Clean) (hfits : s.slots.length ≤ 2147483648) (hσ : σ.Typed)
    (hmethod : s.method = .ok method) (ha : s.evaluate backend σ n = some a) :
    ∃ o c, a = .ended o ∧ EndsWith (Code.Machine.step method) (method.start σ) c ∧
      o.Indistinguishable (method.outcome σ c) ∧ o.store.bindings.Typed := by
  obtain ⟨f, S, m, rfl, hvars, hopened⟩ := h.exists_opened hfits hσ hmethod
  cases backend with
  | treeWalk =>
    rw [h.evaluate_treeWalk] at ha
    obtain ⟨o, ho, rfl⟩ := Option.map_eq_some_iff.1 ha
    obtain ⟨c, hc, hmatch⟩ := hopened.forward ⟨n, ho⟩
    have hmatch' : Code.Matches S.method.vars σ o c := hvars ▸ hmatch
    refine ⟨o, c, rfl, hc, hmatch'.indistinguishable, ?_⟩
    cases Typed.Walk.endsSafely_of_endsWith h.executable hσ ⟨n, ho⟩ with
    | ok _ hτ => exact hτ.bindings
    | error _ hτ => exact hτ.bindings
  | compiled =>
    rw [h.evaluate_compiled hopened.method, Option.map_map] at ha
    obtain ⟨c, hc, rfl⟩ := Option.map_eq_some_iff.1 ha
    obtain ⟨o, -, hmatch⟩ := hopened.backward ⟨n, hc⟩
    have hmatch' : Code.Matches S.method.vars σ o c := hvars ▸ hmatch
    have hnamed : ∀ x ∈ S.method.vars, x.ty.Named := hvars ▸ Code.slots_named h.executable
    have hself := hmatch'.indistinguishable
    exact ⟨_, c, rfl, ⟨n, hc⟩, hself.symm.trans hself, hmatch'.typed hσ.bindings hnamed⟩

/-- Where the compiled method ends, both ways of evaluating do. -/
theorem evaluate_of_machine (h : s.Clean) (hfits : s.slots.length ≤ 2147483648) (hσ : σ.Typed)
    (hmethod : s.method = .ok method) {c : Code.Machine.Ending}
    (hc : EndsWith (Code.Machine.step method) (method.start σ) c) (backend : Backend) :
    ∃ n o, s.evaluate backend σ n = some (.ended o) ∧
      o.Indistinguishable (method.outcome σ c) := by
  obtain ⟨f, S, m, rfl, hvars, hopened⟩ := h.exists_opened hfits hσ hmethod
  obtain ⟨o, ⟨n, ho⟩, hmatch⟩ := hopened.backward hc
  have hmatch' : Code.Matches S.method.vars σ o c := hvars ▸ hmatch
  have hsame := hmatch'.indistinguishable
  cases backend with
  | treeWalk =>
    refine ⟨n, o, ?_, hsame⟩
    rw [h.evaluate_treeWalk, ho]
    rfl
  | compiled =>
    obtain ⟨k, hk⟩ := hc
    refine ⟨k, _, ?_, hsame.symm.trans hsame⟩
    rw [h.evaluate_compiled hopened.method, hk]
    rfl

/-- On stores that read alike, an evaluation is as good as one in the other way. -/
theorem evaluate_congr (h : s.Clean) (hfits : s.slots.length ≤ 2147483648) (hσ : σ.Typed)
    (hτ : τ.Typed) (halike : σ.Alike τ) (ha : s.evaluate backend σ n = some a)
    (other : Backend) :
    ∃ m o o', a = .ended o ∧ s.evaluate other τ m = some (.ended o') ∧
      o.Indistinguishable o' ∧ o.store.bindings.Typed ∧ o'.store.bindings.Typed := by
  obtain ⟨f, S, _, hopened⟩ := Code.exists_opened_of_typed h.executable hfits hσ
  have hmethod : s.method = .ok S.method := hopened.method
  obtain ⟨o, c, rfl, hc, ho, htyped⟩ := h.machine_of_evaluate hfits hσ hmethod ha
  rw [Code.Method.start_congr halike] at hc
  obtain ⟨m, o', ho', hsame⟩ := h.evaluate_of_machine hfits hτ hmethod hc other
  obtain ⟨_, _, heq, -, -, htyped'⟩ := h.machine_of_evaluate hfits hτ hmethod ho'
  cases heq
  have hmiddle : (S.method.outcome σ c).Indistinguishable (S.method.outcome τ c) :=
    Code.Method.outcome_congr halike c
  exact ⟨m, o, o', rfl, ho', (ho.trans hmiddle).trans hsame.symm, htyped, htyped'⟩

end Clean

end Snippet

/-! ### Turns -/

/-- An evaluation that a session is asked for: of the snippet of a number, in one of the ways. -/
structure Turn where
  number : Nat
  backend : Backend

namespace Session

/-- The turn ends with a value, and leads to another session. -/
def Answers (s : Session) (turn : Turn) (v : Value) (t : Session) : Prop :=
  ∃ snippet n τ, s.snippet? turn.number = some snippet ∧
    s.evaluate snippet turn.backend n = some (.ended (.ok v τ), t)

/-- The turn ends in an error. -/
def Breaks (s : Session) (turn : Turn) : Prop :=
  ∃ snippet n error τ t, s.snippet? turn.number = some snippet ∧
    s.evaluate snippet turn.backend n = some (.ended (.error error τ), t)

/-- Turns are taken one after the other, and all of them end with a value.  Beside each value stands
    the console as it was then. -/
inductive Plays : Session → List Turn → List (Value × Console) → Session → Prop where
  | nil {s : Session} : Plays s [] [] s
  | cons {s t u : Session} {turn : Turn} {rest : List Turn} {v : Value}
      {answers : List (Value × Console)} :
      s.Answers turn v t → Plays t rest answers u →
      Plays s (turn :: rest) ((v, t.store.console) :: answers) u

/-- Turns are taken one after the other until one of them ends in an error. -/
inductive Fails : Session → List Turn → Prop where
  | here {s : Session} {turn : Turn} {rest : List Turn} : s.Breaks turn → Fails s (turn :: rest)
  | later {s t : Session} {turn : Turn} {rest : List Turn} {v : Value} :
      s.Answers turn v t → Fails t rest → Fails s (turn :: rest)

variable {s s' t t' : Session} {turn : Turn} {v v' : Value}

theorem evaluate_eq_some_iff {snippet : Snippet} {backend : Backend} {n : Nat} {o : Outcome} :
    s.evaluate snippet backend n = some (.ended o, t) ↔
      snippet.evaluate backend s.store n = some (.ended o) ∧ t = ⟨s.snippets, o.store⟩ := by
  unfold evaluate
  cases snippet.evaluate backend s.store n with
  | none => simp
  | some a =>
    cases a with
    | rejected issues => simp
    | ended o' =>
      simp only [Option.map_some, Option.some.injEq, Prod.mk.injEq, Snippet.Evaluation.ended.injEq]
      constructor
      · rintro ⟨rfl, rfl⟩
        exact ⟨rfl, rfl⟩
      · rintro ⟨rfl, rfl⟩
        exact ⟨rfl, rfl⟩

theorem answers_iff : s.Answers turn v t ↔
    ∃ snippet n τ, s.snippet? turn.number = some snippet ∧
      snippet.evaluate turn.backend s.store n = some (.ended (.ok v τ)) ∧
        t = ⟨s.snippets, τ⟩ := by
  simp only [Answers, evaluate_eq_some_iff]
  rfl

theorem breaks_iff : s.Breaks turn ↔
    ∃ snippet n error τ, s.snippet? turn.number = some snippet ∧
      snippet.evaluate turn.backend s.store n = some (.ended (.error error τ)) := by
  simp only [Breaks, evaluate_eq_some_iff]
  constructor
  · rintro ⟨snippet, n, error, τ, t, hsnippet, heval, -⟩
    exact ⟨snippet, n, error, τ, hsnippet, heval⟩
  · rintro ⟨snippet, n, error, τ, hsnippet, heval⟩
    exact ⟨snippet, n, error, τ, _, hsnippet, heval, rfl⟩

/-! ### One turn -/

/-- The snippets of a session are clean and not too large to be compiled, and its variables have
    values of their types. -/
structure Sound (s : Session) : Prop where
  clean : ∀ snippet ∈ s.snippets, snippet.Clean
  fits : ∀ snippet ∈ s.snippets, snippet.slots.length ≤ 2147483648
  bindings : s.store.bindings.Typed

/-- Two sessions have the same snippets, and stores that read alike. -/
structure Alike (s t : Session) : Prop where
  snippets : s.snippets = t.snippets
  store : s.store.Alike t.store

theorem Alike.refl (s : Session) : s.Alike s := ⟨rfl, rfl, fun _ => rfl⟩

/-- What a turn comes to does not depend on the way of evaluating, nor on bindings beyond what they
    read as. -/
theorem evaluate_congr (hs : s.Sound) (hs' : s'.Sound) (h : s.Alike s') {snippet : Snippet}
    (hsnippet : s.snippet? turn.number = some snippet) {n : Nat} {o : Outcome}
    (ho : snippet.evaluate turn.backend s.store n = some (.ended o)) {other : Turn}
    (hother : turn.number = other.number) :
    s'.snippet? other.number = some snippet ∧
      ∃ m o', snippet.evaluate other.backend s'.store m = some (.ended o') ∧
        o.Indistinguishable o' ∧ o.store.bindings.Typed ∧ o'.store.bindings.Typed := by
  have hmem : snippet ∈ s.snippets := List.mem_of_getElem? hsnippet
  have hsnippet' : s'.snippet? other.number = some snippet := by
    rw [← hother]
    exact (congrArg (·[turn.number]?) h.snippets).symm.trans hsnippet
  have hσ : s.store.Typed := ⟨hs.bindings, nofun⟩
  have hτ : s'.store.Typed := ⟨hs'.bindings, nofun⟩
  obtain ⟨m, _, o', heq, ho', hsame, htyped, htyped'⟩ := (hs.clean snippet hmem).evaluate_congr
    (hs.fits snippet hmem) hσ hτ h.store ho other.backend
  cases heq
  exact ⟨hsnippet', m, o', ho', hsame, htyped, htyped'⟩

theorem Answers.congr (h : s.Answers turn v t) (hs : s.Sound) (hs' : s'.Sound) (halike : s.Alike s')
    {other : Turn} (hother : turn.number = other.number) :
    t.Sound ∧ ∃ t', s'.Answers other v t' ∧ t'.Sound ∧ t.Alike t' := by
  obtain ⟨snippet, n, τ, hsnippet, heval, rfl⟩ := answers_iff.1 h
  obtain ⟨hsnippet', m, o', heval', hsame, htyped, htyped'⟩ :=
    evaluate_congr hs hs' halike hsnippet heval hother
  cases hsame with
  | @ok _ _ τ' hconsole hreads =>
    have hanswers : s'.Answers other v ⟨s'.snippets, τ'⟩ :=
      answers_iff.2 ⟨snippet, m, τ', hsnippet', heval', rfl⟩
    refine ⟨⟨hs.clean, hs.fits, htyped⟩, _, hanswers, ⟨hs'.clean, hs'.fits, htyped'⟩, ?_⟩
    exact ⟨halike.snippets, hconsole, hreads⟩

theorem Breaks.congr (h : s.Breaks turn) (hs : s.Sound) (hs' : s'.Sound) (halike : s.Alike s')
    {other : Turn} (hother : turn.number = other.number) : s'.Breaks other := by
  obtain ⟨snippet, n, error, τ, hsnippet, heval⟩ := breaks_iff.1 h
  obtain ⟨hsnippet', m, o', heval', hsame, -, -⟩ :=
    evaluate_congr hs hs' halike hsnippet heval hother
  cases hsame with
  | @error _ _ τ' hconsole => exact breaks_iff.2 ⟨snippet, m, error, τ', hsnippet', heval'⟩

theorem Answers.unique (h : s.Answers turn v t) (h' : s.Answers turn v' t') : v = v' ∧ t = t' := by
  obtain ⟨snippet, n, τ, hsnippet, heval, rfl⟩ := answers_iff.1 h
  obtain ⟨snippet', n', τ', hsnippet', heval', rfl⟩ := answers_iff.1 h'
  obtain rfl := Option.some.inj (hsnippet.symm.trans hsnippet')
  cases Snippet.evaluate_unique heval heval'
  exact ⟨rfl, rfl⟩

theorem Answers.not_breaks (h : s.Answers turn v t) : ¬ s.Breaks turn := by
  intro h'
  obtain ⟨snippet, n, τ, hsnippet, heval, rfl⟩ := answers_iff.1 h
  obtain ⟨snippet', n', error, τ', hsnippet', heval'⟩ := breaks_iff.1 h'
  obtain rfl := Option.some.inj (hsnippet.symm.trans hsnippet')
  cases Snippet.evaluate_unique heval heval'

/-! ### All turns -/

variable {turns first second : List Turn} {answers answers' : List (Value × Console)}

theorem Plays.unique (h : s.Plays turns answers t) (h' : s.Plays turns answers' t') :
    answers = answers' ∧ t = t' := by
  induction h generalizing answers' with
  | nil =>
    cases h' with
    | nil => exact ⟨rfl, rfl⟩
  | cons hanswers _ ih =>
    cases h' with
    | cons hanswers' hrest' =>
      obtain ⟨rfl, rfl⟩ := hanswers.unique hanswers'
      obtain ⟨rfl, rfl⟩ := ih hrest'
      exact ⟨rfl, rfl⟩

theorem Plays.not_fails (h : s.Plays turns answers t) : ¬ s.Fails turns := by
  intro h'
  induction h with
  | nil => cases h'
  | cons hanswers _ ih =>
    cases h' with
    | here hbreaks => exact hanswers.not_breaks hbreaks
    | later hanswers' hfails =>
      obtain ⟨rfl, rfl⟩ := hanswers.unique hanswers'
      exact ih hfails

theorem Plays.congr (h : s.Plays first answers t) (hs : s.Sound) (hs' : s'.Sound)
    (halike : s.Alike s') (hsame : first.map Turn.number = second.map Turn.number) :
    ∃ t', s'.Plays second answers t' ∧ t.Alike t' := by
  induction h generalizing s' second with
  | nil =>
    obtain rfl := List.map_eq_nil_iff.1 hsame.symm
    exact ⟨s', .nil, halike⟩
  | cons hanswers _ ih =>
    obtain ⟨other, rest', rfl, hnumber, hrest⟩ := List.map_eq_cons_iff.1 hsame.symm
    obtain ⟨ht, t', hanswers', ht', halike'⟩ := hanswers.congr hs hs' halike hnumber.symm
    obtain ⟨u', hplays, hu⟩ := ih ht ht' halike' hrest.symm
    refine ⟨u', ?_, hu⟩
    rw [halike'.store.console]
    exact .cons hanswers' hplays

theorem Fails.congr (h : s.Fails first) (hs : s.Sound) (hs' : s'.Sound) (halike : s.Alike s')
    (hsame : first.map Turn.number = second.map Turn.number) : s'.Fails second := by
  induction h generalizing s' second with
  | here hbreaks =>
    obtain ⟨other, rest', rfl, hnumber, -⟩ := List.map_eq_cons_iff.1 hsame.symm
    exact .here (hbreaks.congr hs hs' halike hnumber.symm)
  | later hanswers _ ih =>
    obtain ⟨other, rest', rfl, hnumber, hrest⟩ := List.map_eq_cons_iff.1 hsame.symm
    obtain ⟨ht, t', hanswers', ht', halike'⟩ := hanswers.congr hs hs' halike hnumber.symm
    exact .later hanswers' (ih ht ht' halike' hrest.symm)

/-- Two players who evaluate the same snippets in the same order, each in ways of their own, cannot
    tell their sessions apart: if the one meets no error then the other meets none, and where both
    get through they have the same values, the same console after every turn, and in the end
    variables that read the same. -/
theorem plays_indistinguishable (hs : s.Sound)
    (hsame : first.map Turn.number = second.map Turn.number) (hfirst : ¬ s.Fails first) :
    ¬ s.Fails second ∧
    (∀ answers t, s.Plays first answers t → ∃ t', s.Plays second answers t' ∧ t.Alike t') ∧
    ∀ answers answers' t t', s.Plays first answers t → s.Plays second answers' t' →
      answers = answers' ∧ t.Alike t' := by
  refine ⟨?_, ?_, ?_⟩
  · intro hsecond
    exact hfirst (hsecond.congr hs hs (.refl s) hsame.symm)
  · intro answers t hplays
    exact hplays.congr hs hs (.refl s) hsame
  · intro answers answers' t t' hplays hplays'
    obtain ⟨u, hu, halike⟩ := hplays.congr hs hs (.refl s) hsame
    obtain ⟨rfl, rfl⟩ := hu.unique hplays'
    exact ⟨rfl, halike⟩

/-- The method of the second snippet gives `low` a value although the branch is not taken.  The walks
    do not, and the third snippet does not notice. -/
theorem plays_indistinguishable_untaken_branch :
    let a := Snippet.first "var n = 20"
    let b := a.next "if n < 0 { var low = n } n = n + 1"
    let c := b.next "n * 2"
    let console := Console.start [] fun _ => 0
    let s : Session := ⟨[a, b, c], ⟨Bindings.empty, console⟩⟩
    ∃ t, s.Plays [⟨0, .compiled⟩, ⟨1, .compiled⟩, ⟨2, .treeWalk⟩]
      [(.int 20, console), (.int 21, console), (.int 42, console)] t := by
  intro a b c console s
  have ha : a.Clean := .first (by decide +kernel)
  have hb : b.Clean := .next ha (by decide +kernel)
  have hc : c.Clean := .next hb (by decide +kernel)
  have hs : s.Sound := by
    constructor
    · intro snippet hsnippet
      simp only [s, List.mem_cons, List.not_mem_nil, or_false] at hsnippet
      rcases hsnippet with rfl | rfl | rfl
      · exact ha
      · exact hb
      · exact hc
    · decide +kernel
    · exact Bindings.typed_empty
  let n : Variable := ⟨"n", false, .int⟩
  let t : Session := ⟨[a, b, c], ⟨⟨[(n, .int 20)]⟩, console⟩⟩
  let u : Session := ⟨[a, b, c], ⟨⟨[(n, .int 21)]⟩, console⟩⟩
  have hfirst : s.Answers ⟨0, .treeWalk⟩ (.int 20) t :=
    answers_iff.2 ⟨a, 20, _, rfl, by cbv, rfl⟩
  have hsecond : t.Answers ⟨1, .treeWalk⟩ (.int 21) u :=
    answers_iff.2 ⟨b, 20, _, rfl, by cbv, rfl⟩
  have hthird : u.Answers ⟨2, .compiled⟩ (.int 42) u :=
    answers_iff.2 ⟨c, 60, _, rfl, by cbv, rfl⟩
  have hplays := Plays.cons hfirst (.cons hsecond (.cons hthird .nil))
  have hsame : List.map Turn.number [⟨0, .treeWalk⟩, ⟨1, .treeWalk⟩, ⟨2, .compiled⟩] =
      List.map Turn.number [⟨0, .compiled⟩, ⟨1, .compiled⟩, ⟨2, .treeWalk⟩] := rfl
  obtain ⟨-, hcarries, -⟩ := plays_indistinguishable hs hsame hplays.not_fails
  obtain ⟨t', ht', -⟩ := hcarries _ _ hplays
  exact ⟨t', ht'⟩

/-- A session whose only snippet is too crowded for a method, though not for lowering to number its
    labels, can be played by walking alone. -/
theorem plays_indistinguishable_fails :
    let snippet := Snippet.crowded 2147483647
    let s : Session := ⟨[snippet], ⟨Bindings.empty, Console.start [] fun _ => 0⟩⟩
    snippet.Clean ∧ snippet.statement.labelCount < UInt32.size ∧ s.store.bindings.Typed ∧
      s.Plays [⟨0, .treeWalk⟩] [(.void, s.store.console)] s ∧ ¬ s.Fails [⟨0, .treeWalk⟩] ∧
      s.Fails [⟨0, .compiled⟩] := by
  intro snippet s
  have h : snippet.Clean := Snippet.clean_crowded 2147483647
  have hlabels : snippet.statement.labelCount = 4294967295 := Snippet.labelCount_crowded 2147483647
  have hslots : 2147483649 ≤ snippet.slots.length := Snippet.le_length_slots_crowded (by decide)
  have hwalk : s.Answers ⟨0, .treeWalk⟩ .void s :=
    answers_iff.2 ⟨snippet, 2, _, rfl, Snippet.evaluate_treeWalk_crowded 2147483647 s.store, rfl⟩
  have hplays : s.Plays [⟨0, .treeWalk⟩] [(.void, s.store.console)] s := .cons hwalk .nil
  have hbreaks : s.Breaks ⟨0, .compiled⟩ :=
    breaks_iff.2 ⟨snippet, 0, _, _, rfl, h.compiled_refused (by omega) 0⟩
  exact ⟨h, hlabels ▸ by decide, Bindings.typed_empty, hplays, hplays.not_fails, .here hbreaks⟩

end Session

end SnippetLang

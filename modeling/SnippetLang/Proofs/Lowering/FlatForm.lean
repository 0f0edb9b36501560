import SnippetLang.Proofs.Lowering.Layout
import SnippetLang.Proofs.Lowering.Tracking
import SnippetLang.Proofs.Scoping.Separate

/-!
# The form of lowered statements

What a statement is lowered to, seen from outside: the kinds of statements in it, the labels that it
marks and jumps to, and the variables that it declares.  All of this follows from how many labels and
hidden bounds the statement takes, which can be counted in the statement itself.

Lowering is also told as a rewriting here.  A structured statement becomes a block of simpler
statements that is rewritten again, so a counting loop passes through a loop that tests first; the
blocks are dissolved at the end.  The rewriting comes to an end, and with what `lower` answers.
-/

namespace SnippetLang.Typed

/-! ### Flat statements -/

/-- A statement of a flat program is a declaration, an expression, a jump or a label. -/
def Stmt.Flat : Stmt → Prop
  | .declare _ _ => True
  | .expr _ => True
  | .goto _ => True
  | .gotoIf _ _ _ => True
  | .label _ => True
  | _ => False

/-- The label that a statement jumps to. -/
def Stmt.target? : Stmt → Option JumpLabel
  | .goto l => some l
  | .gotoIf l _ _ => some l
  | _ => none

/-- The labels that a program jumps to. -/
def targets (program : List Stmt) : List JumpLabel := program.filterMap Stmt.target?

/-- The variable that a statement of a flat program declares. -/
def Stmt.declared? : Stmt → Option Variable
  | .declare x _ => some x
  | _ => none

/-- The variables that a flat program declares, in order. -/
def declarations (program : List Stmt) : List Variable := program.filterMap Stmt.declared?

/-! ### What a statement takes -/

mutual

/-- How many labels the lowered form of a statement has: one for a condition with one branch, two for
    a condition with two branches and for every loop. -/
def Stmt.labelCount : Stmt → Nat
  | .block body => Stmt.labelCountAll body
  | .ifThen _ yes => 1 + yes.labelCount
  | .ifElse _ yes no => 2 + (yes.labelCount + no.labelCount)
  | .whileDo _ body => 2 + body.labelCount
  | .doWhile body _ => 2 + body.labelCount
  | .count _ _ _ body => 2 + body.labelCount
  | _ => 0

/-- The same for the statements of a list together. -/
def Stmt.labelCountAll : List Stmt → Nat
  | [] => 0
  | s :: rest => s.labelCount + Stmt.labelCountAll rest

end

mutual

/-- How many counting loops there are in a statement. -/
def Stmt.loopCount : Stmt → Nat
  | .block body => Stmt.loopCountAll body
  | .ifThen _ yes => yes.loopCount
  | .ifElse _ yes no => yes.loopCount + no.loopCount
  | .whileDo _ body => body.loopCount
  | .doWhile body _ => body.loopCount
  | .count _ _ _ body => 1 + body.loopCount
  | _ => 0

/-- The same for the statements of a list together. -/
def Stmt.loopCountAll : List Stmt → Nat
  | [] => 0
  | s :: rest => s.loopCount + Stmt.loopCountAll rest

end

namespace Counters

/-- So many labels from here on. -/
def nextLabels (c : Counters) (n : Nat) : List JumpLabel := (List.range n).map c.label

/-- So many hidden bounds from here on. -/
def nextBounds (c : Counters) (n : Nat) : List Variable :=
  (List.range n).map fun k => hiddenBound (c.bounds + 1 + k)

theorem take_take (c : Counters) (l b l' b' : Nat) :
    (c.take l b).take l' b' = c.take (l + l') (b + b') := by
  simp only [take, Nat.add_assoc]

theorem nextLabels_add (c : Counters) (l b l' : Nat) :
    c.nextLabels (l + l') = c.nextLabels l ++ (c.take l b).nextLabels l' := by
  simp only [nextLabels, List.range_add, List.map_append, List.map_map]
  congr 1
  refine List.map_congr_left fun k _ => ?_
  simp only [Function.comp_apply, label, take, JumpLabel.mk.injEq]
  omega

theorem nextBounds_add (c : Counters) (l b b' : Nat) :
    c.nextBounds (b + b') = c.nextBounds b ++ (c.take l b).nextBounds b' := by
  simp only [nextBounds, List.range_add, List.map_append, List.map_map]
  congr 1
  refine List.map_congr_left fun k _ => ?_
  simp only [Function.comp_apply, take]
  congr 1
  omega

end Counters

mutual

/-- Lowering leaves the counters behind the labels and the bounds that the statement takes. -/
theorem counters_lowerFrom : (s : Stmt) → (c : Counters) →
    (s.lowerFrom c).2 = c.take s.labelCount s.loopCount
  | .block body, c => counters_lowerAllFrom body c
  | .ifThen e yes, c => by
    rw [lowerFrom_ifThen, counters_lowerFrom yes, Counters.take_take, Nat.zero_add]
    rfl
  | .ifElse e yes no, c => by
    rw [lowerFrom_ifElse, counters_lowerFrom no, counters_lowerFrom yes, Counters.take_take,
      Counters.take_take, Nat.zero_add]
    rfl
  | .whileDo e body, c => by
    rw [lowerFrom_whileDo, counters_lowerFrom body, Counters.take_take, Nat.zero_add]
    rfl
  | .doWhile body e, c => by
    rw [lowerFrom_doWhile, counters_lowerFrom body, Counters.take_take, Nat.zero_add]
    rfl
  | .count x lower upper body, c => by
    rw [lowerFrom_count, counters_lowerFrom body, Counters.take_take]
    rfl
  | .declare _ _, _ | .expr _, _ | .goto _, _ | .gotoIf _ _ _, _ | .label _, _ | .result _, _ => rfl

theorem counters_lowerAllFrom : (body : List Stmt) → (c : Counters) →
    (Stmt.lowerAllFrom c body).2 = c.take (Stmt.labelCountAll body) (Stmt.loopCountAll body)
  | [], _ => rfl
  | s :: rest, c => by
    rw [lowerAllFrom_cons, counters_lowerAllFrom rest, counters_lowerFrom s, Counters.take_take]
    rfl

end

/-! ### Well-formed code -/

/-- Code as lowering makes it: flat, marking the next labels once each, jumping to these alone, and
    declaring certain variables and the next hidden bounds. -/
structure Formed (c : Counters) (labels bounds : Nat) (declared : List Variable)
    (code : List Stmt) : Prop where
  flat : ∀ s ∈ code, s.Flat
  marked : (marks code).Perm (c.nextLabels labels)
  aimed : targets code ⊆ marks code
  declarations : (declarations code).Perm (declared ++ c.nextBounds bounds)

/-- Two middle parts of a list change places. -/
theorem perm_exchange {α : Type} (a b a' b' : List α) :
    (a ++ b ++ (a' ++ b')).Perm (a ++ a' ++ (b ++ b')) := by
  simp only [List.append_assoc]
  refine List.Perm.append_left a ?_
  rw [← List.append_assoc, ← List.append_assoc]
  exact List.perm_append_comm.append_right b'

namespace Formed

variable {c : Counters} {l b l' b' : Nat} {d d' : List Variable} {p q code : List Stmt}

theorem single {s : Stmt} (hs : s.Flat) (hlabel : s.label? = none) (htarget : s.target? = none)
    (hdeclared : s.declared?.toList = d) : Formed c 0 0 d [s] := by
  have hmarks : marks [s] = [] := by simp [marks, hlabel]
  constructor
  · exact List.forall_mem_singleton.2 hs
  · exact .of_eq hmarks
  · simp [targets, htarget]
  · refine .of_eq ?_
    rw [← hdeclared]
    cases hs' : s.declared? <;> simp [Typed.declarations, hs', Counters.nextBounds]

theorem nil : Formed c 0 0 [] [] :=
  ⟨List.forall_mem_nil _, .refl _, List.Subset.refl _, .refl _⟩

/-- Code that goes on with the counters that other code leaves. -/
theorem append (hp : Formed c l b d p) (hq : Formed (c.take l b) l' b' d' q) :
    Formed c (l + l') (b + b') (d ++ d') (p ++ q) := by
  constructor
  · exact List.forall_mem_append.2 ⟨hp.flat, hq.flat⟩
  · rw [marks_append, Counters.nextLabels_add c l b l']
    exact hp.marked.append hq.marked
  · rw [targets, List.filterMap_append, marks_append]
    exact List.append_subset.2
      ⟨List.subset_append_of_subset_left _ hp.aimed, List.subset_append_of_subset_right _ hq.aimed⟩
  · rw [Typed.declarations, List.filterMap_append, Counters.nextBounds_add c l b b']
    exact (hp.declarations.append hq.declarations).trans (perm_exchange ..)

/-- The order of the statements does not matter for any of this. -/
theorem perm (hp : Formed c l b d p) (h : code.Perm p) : Formed c l b d code := by
  constructor
  · intro s hs
    exact hp.flat s (h.mem_iff.1 hs)
  · exact (h.filterMap _).trans hp.marked
  · intro t ht
    exact (h.filterMap _).mem_iff.2 (hp.aimed ((h.filterMap _).mem_iff.1 ht))
  · exact (h.filterMap _).trans hp.declarations

/-- Code around other code, with the labels and the bounds that were taken before it. -/
theorem enclose {own : List Stmt} (hown : Formed c l b d own)
    (hp : Formed (c.take l b) l' b' d' p) (h : code.Perm (own ++ p)) :
    Formed c (l + l') (b + b') (d ++ d') code := (hown.append hp).perm h

end Formed

/-! ### Lowered statements are well formed -/

section

variable (c : Counters) (e : Expr)

/-- What a statement adds to the code of its parts. -/
theorem Formed.own {l b : Nat} {d : List Variable} {code : List Stmt} (hflat : ∀ s ∈ code, s.Flat)
    (hmarks : marks code = c.nextLabels l) (haimed : targets code ⊆ c.nextLabels l)
    (hdeclared : Typed.declarations code = d ++ c.nextBounds b) : Formed c l b d code :=
  ⟨hflat, .of_eq hmarks, hmarks ▸ haimed, .of_eq hdeclared⟩

theorem formed_ifThen :
    Formed c 1 0 [] [.gotoIf (c.label 0) e false, .label (c.label 0)] :=
  .own c (by simp [Stmt.Flat]) rfl (List.Subset.refl _) rfl

theorem formed_ifElse :
    Formed c 2 0 [] [.gotoIf (c.label 0) e false, .goto (c.label 1), .label (c.label 0),
      .label (c.label 1)] :=
  .own c (by simp [Stmt.Flat]) rfl (List.Subset.refl _) rfl

theorem formed_whileDo :
    Formed c 2 0 [] [.label (c.label 0), .gotoIf (c.label 1) e false, .goto (c.label 0),
      .label (c.label 1)] :=
  .own c (by simp [Stmt.Flat]) rfl (List.Perm.swap (c.label 0) (c.label 1) []).subset rfl

theorem formed_doWhile :
    Formed c 2 0 [] [.label (c.label 0), .gotoIf (c.label 0) e true, .label (c.label 1)] :=
  .own c (by simp [Stmt.Flat]) rfl
    (List.subset_append_left [c.label 0] [c.label 1]) rfl

theorem formed_count (x : Variable) (lower upper : Expr) :
    Formed c 2 1 [x] (.declare x lower :: .declare c.bound upper :: .label (c.label 0) ::
      countingCode x c.bound (c.label 0) (c.label 1) []) :=
  .own c (by simp [Stmt.Flat, countingCode]) rfl
    (List.Perm.swap (c.label 0) (c.label 1) []).subset rfl

end

mutual

/-- The lowered form of a statement is well formed. -/
theorem formed_lowerFrom : (s : Stmt) → s.Structured → (c : Counters) →
    Formed c s.labelCount s.loopCount s.introduces (s.lowerFrom c).1
  | .block body, hs, c => formed_lowerAllFrom body hs c
  | .declare x init, _, c => .single trivial rfl rfl rfl
  | .expr e, _, c => .single trivial rfl rfl rfl
  | .ifThen e yes, hs, c => by
    rw [lowerFrom_ifThen, ← Nat.zero_add (Stmt.loopCount _)]
    exact (formed_ifThen c e).enclose (formed_lowerFrom yes hs _)
      ((List.perm_append_singleton _ _).cons _)
  | .ifElse e yes no, hs, c => by
    rw [lowerFrom_ifElse, ← Nat.zero_add (Stmt.loopCount _)]
    have hno := formed_lowerFrom no hs.2 (yes.lowerFrom (c.take 2 0)).2
    rw [counters_lowerFrom] at hno
    refine (formed_ifElse c e).enclose ((formed_lowerFrom yes hs.1 _).append hno) ?_
    refine List.Perm.cons _ (List.perm_middle.trans (.cons _ (List.perm_middle.trans (.cons _ ?_))))
    rw [← List.append_assoc, counters_lowerFrom]
    exact List.perm_append_singleton _ _
  | .whileDo e body, hs, c => by
    rw [lowerFrom_whileDo, ← Nat.zero_add (Stmt.loopCount _)]
    exact (formed_whileDo c e).enclose (formed_lowerFrom body hs _)
      ((List.perm_append_comm.cons _).cons _)
  | .doWhile body e, hs, c => by
    rw [lowerFrom_doWhile, ← Nat.zero_add (Stmt.loopCount _)]
    exact (formed_doWhile c e).enclose (formed_lowerFrom body hs _)
      (List.perm_append_comm.cons _)
  | .count x lower upper body, hs, c => by
    rw [lowerFrom_count]
    exact (formed_count c x lower upper).enclose (formed_lowerFrom body hs _)
      ((((List.perm_append_comm.cons _).cons _).cons _).cons _)

theorem formed_lowerAllFrom : (body : List Stmt) → Stmt.AllStructured body → (c : Counters) →
    Formed c (Stmt.labelCountAll body) (Stmt.loopCountAll body) (Stmt.allIntroduce body)
      (Stmt.lowerAllFrom c body).1
  | [], _, c => .nil
  | s :: rest, hs, c => by
    rw [lowerAllFrom_cons]
    refine (formed_lowerFrom s hs.1 c).append ?_
    rw [counters_lowerFrom]
    exact formed_lowerAllFrom rest hs.2 _

end

/-! ### The form of a lowered program -/

/-- Of the next hidden bounds the one with a number is there once, if its number comes next. -/
theorem filter_nextBounds (c : Counters) (n k : Nat) :
    (c.nextBounds n).filter (·.name = boundName k) =
      if c.bounds < k ∧ k ≤ c.bounds + n then [hiddenBound k] else [] := by
  induction n with
  | zero =>
    rw [if_neg (by omega)]
    rfl
  | succ n ih =>
    have hlast : (c.take 0 n).nextBounds 1 = [hiddenBound (c.bounds + n + 1)] := rfl
    rw [Counters.nextBounds_add c 0 n 1, List.filter_append, ih, hlast]
    by_cases hk : k = c.bounds + n + 1
    · subst hk
      rw [if_neg (by omega), if_pos (by omega)]
      simp [hiddenBound]
    · have hne : boundName (c.bounds + n + 1) ≠ boundName k := fun h => hk (boundName_injective h).symm
      have hiff : (c.bounds < k ∧ k ≤ c.bounds + (n + 1)) ↔ c.bounds < k ∧ k ≤ c.bounds + n := by
        omega
      simp [hiddenBound, hne, hiff]

/-- A statement that declares nothing of the name of a hidden bound is lowered to a program that
    declares the bound once, if the statement has as many counting loops, and not at all otherwise. -/
theorem filter_declarations_lower {s : Stmt} (hs : s.Structured) {k : Nat}
    (hfree : ∀ x ∈ s.introduces, x.name ≠ boundName k) :
    (declarations s.lower).filter (·.name = boundName k) =
      if 0 < k ∧ k ≤ s.loopCount then [hiddenBound k] else [] := by
  have hperm := (formed_lowerFrom s hs ⟨0, 0⟩).declarations.filter (·.name = boundName k)
  have hown : s.introduces.filter (·.name = boundName k) = [] :=
    List.filter_eq_nil_iff.2 fun x hx => by simpa using hfree x hx
  rw [List.filter_append, hown, List.nil_append, filter_nextBounds, Nat.zero_add] at hperm
  split
  · next hk =>
    rw [if_pos hk] at hperm
    exact List.perm_singleton.1 hperm
  · next hk =>
    rw [if_neg hk] at hperm
    exact List.perm_nil.1 hperm

/-- A flat statement is its own lowered form. -/
theorem lowerFrom_of_flat {s : Stmt} (h : s.Flat) (c : Counters) : s.lowerFrom c = ([s], c) := by
  cases s <;> first | rfl | exact h.elim

theorem flatten_of_flat {s : Stmt} (h : s.Flat) : s.flatten = [s] := by
  cases s <;> first | rfl | exact h.elim

theorem lowerAllFrom_of_flat {program : List Stmt} (h : ∀ s ∈ program, s.Flat) (c : Counters) :
    Stmt.lowerAllFrom c program = (program, c) := by
  induction program with
  | nil => rfl
  | cons s rest ih =>
    obtain ⟨hs, hrest⟩ := List.forall_mem_cons.1 h
    rw [lowerAllFrom_cons, lowerFrom_of_flat hs, ih hrest]
    rfl

/-- Lowering what was lowered changes nothing. -/
theorem lower_block_lower {s : Stmt} (hs : s.Structured) :
    (Stmt.block s.lower).lower = s.lower := by
  have hflat : ∀ t ∈ s.lower, t.Flat := (formed_lowerFrom s hs ⟨0, 0⟩).flat
  have hagain : (Stmt.lowerAllFrom ⟨0, 0⟩ s.lower).1 = s.lower := by
    rw [lowerAllFrom_of_flat hflat]
  exact hagain

/-! ### Lowering as a rewriting -/

mutual

/-- A statement is rewritten with counters, which goes on from other counters.  A structured statement
    becomes a block that jumps, or one with a simpler loop in it, and that is rewritten in turn. -/
inductive Stmt.Rewrites : Counters → Stmt → Stmt → Counters → Prop where
  | block {c c' : Counters} {body body' : List Stmt} :
      Stmt.RewritesAll c body body' c' → Rewrites c (.block body) (.block body') c'
  | ifThen {c c' : Counters} {e : Expr} {yes s : Stmt} :
      Rewrites (c.take 1 0)
        (.block [.gotoIf (c.label 0) e false, yes, .label (c.label 0)]) s c' →
      Rewrites c (.ifThen e yes) s c'
  | ifElse {c c' : Counters} {e : Expr} {yes no s : Stmt} :
      Rewrites (c.take 2 0)
        (.block [.gotoIf (c.label 0) e false, yes, .goto (c.label 1), .label (c.label 0), no,
          .label (c.label 1)]) s c' →
      Rewrites c (.ifElse e yes no) s c'
  | whileDo {c c' : Counters} {e : Expr} {body s : Stmt} :
      Rewrites (c.take 2 0)
        (.block [.label (c.label 0), .gotoIf (c.label 1) e false, body, .goto (c.label 0),
          .label (c.label 1)]) s c' →
      Rewrites c (.whileDo e body) s c'
  | doWhile {c c' : Counters} {e : Expr} {body s : Stmt} :
      Rewrites (c.take 2 0)
        (.block [.label (c.label 0), body, .gotoIf (c.label 0) e true, .label (c.label 1)]) s c' →
      Rewrites c (.doWhile body e) s c'
  | count {c c' : Counters} {x : Variable} {lower upper : Expr} {body s : Stmt} :
      Rewrites (c.take 0 1)
        (.block [.declare x lower, .declare c.bound upper,
          .whileDo (withinBound x c.bound) (.block [body, .expr (increment x)])]) s c' →
      Rewrites c (.count x lower upper body) s c'
  | flat {c : Counters} {s : Stmt} : s.Flat → Rewrites c s s c
  | result {c : Counters} {ty : Ty} : Rewrites c (.result ty) (.result ty) c

/-- The same for statements one after the other. -/
inductive Stmt.RewritesAll : Counters → List Stmt → List Stmt → Counters → Prop where
  | nil {c : Counters} : RewritesAll c [] [] c
  | cons {c c' c'' : Counters} {s s' : Stmt} {rest rest' : List Stmt} :
      Stmt.Rewrites c s s' c' → RewritesAll c' rest rest' c'' →
      RewritesAll c (s :: rest) (s' :: rest') c''

end

mutual

/-- Every rewriting comes to an end. -/
theorem exists_rewrites : (s : Stmt) → (c : Counters) →
    ∃ t, s.Rewrites c t (s.lowerFrom c).2
  | .block body, c => by
    obtain ⟨body', h⟩ := exists_rewritesAll body c
    exact ⟨_, .block h⟩
  | .ifThen e yes, c => by
    obtain ⟨t, h⟩ := exists_rewrites yes (c.take 1 0)
    exact ⟨_, .ifThen (.block (.cons (.flat trivial) (.cons h (.cons (.flat trivial) .nil))))⟩
  | .ifElse e yes no, c => by
    obtain ⟨t, h⟩ := exists_rewrites yes (c.take 2 0)
    obtain ⟨t', h'⟩ := exists_rewrites no (yes.lowerFrom (c.take 2 0)).2
    exact ⟨_, .ifElse (.block (.cons (.flat trivial) (.cons h (.cons (.flat trivial)
      (.cons (.flat trivial) (.cons h' (.cons (.flat trivial) .nil)))))))⟩
  | .whileDo e body, c => by
    obtain ⟨t, h⟩ := exists_rewrites body (c.take 2 0)
    exact ⟨_, .whileDo (.block (.cons (.flat trivial) (.cons (.flat trivial) (.cons h
      (.cons (.flat trivial) (.cons (.flat trivial) .nil))))))⟩
  | .doWhile body e, c => by
    obtain ⟨t, h⟩ := exists_rewrites body (c.take 2 0)
    exact ⟨_, .doWhile (.block (.cons (.flat trivial) (.cons h
      (.cons (.flat trivial) (.cons (.flat trivial) .nil)))))⟩
  | .count x lower upper body, c => by
    obtain ⟨t, h⟩ := exists_rewrites body (c.take 2 1)
    have hbody : (Stmt.block [body, .expr (increment x)]).Rewrites (c.take 2 1)
        (.block [t, .expr (increment x)]) (body.lowerFrom (c.take 2 1)).2 :=
      .block (.cons h (.cons (.flat trivial) .nil))
    have hloop : Stmt.Rewrites (c.take 0 1)
        (.whileDo (withinBound x c.bound) (.block [body, .expr (increment x)])) _
        (body.lowerFrom (c.take 2 1)).2 :=
      .whileDo (.block (.cons (.flat trivial) (.cons (.flat trivial) (.cons hbody
        (.cons (.flat trivial) (.cons (.flat trivial) .nil))))))
    exact ⟨_, .count (.block (.cons (.flat trivial) (.cons (.flat trivial) (.cons hloop .nil))))⟩
  | .declare _ _, _ | .expr _, _ | .goto _, _ | .gotoIf _ _ _, _ | .label _, _ =>
    ⟨_, .flat trivial⟩
  | .result _, _ => ⟨_, .result⟩

theorem exists_rewritesAll : (body : List Stmt) → (c : Counters) →
    ∃ body', Stmt.RewritesAll c body body' (Stmt.lowerAllFrom c body).2
  | [], _ => ⟨_, .nil⟩
  | s :: rest, c => by
    obtain ⟨t, h⟩ := exists_rewrites s c
    obtain ⟨rest', hrest⟩ := exists_rewritesAll rest (s.lowerFrom c).2
    exact ⟨_, .cons h hrest⟩

end

mutual

/-- What a rewriting ends with is the lowered form, once its blocks are dissolved. -/
theorem lowerFrom_of_rewrites {c c' : Counters} {s t : Stmt} :
    s.Rewrites c t c' → s.lowerFrom c = (t.flatten, c')
  | .block h => lowerAllFrom_of_rewritesAll h
  | .ifThen h => by
    rw [← lowerFrom_of_rewrites h]
    simp [Stmt.lowerFrom, Stmt.lowerAllFrom]
  | .ifElse h => by
    rw [← lowerFrom_of_rewrites h]
    simp [Stmt.lowerFrom, Stmt.lowerAllFrom]
  | .whileDo h => by
    rw [← lowerFrom_of_rewrites h]
    simp [Stmt.lowerFrom, Stmt.lowerAllFrom]
  | .doWhile h => by
    rw [← lowerFrom_of_rewrites h]
    simp [Stmt.lowerFrom, Stmt.lowerAllFrom]
  | .count (c := c) h => by
    -- the labels are taken behind the bound, which makes no difference to them
    have hlabel (k : Nat) : (c.take 0 1).label k = c.label k := rfl
    rw [← lowerFrom_of_rewrites h]
    simp [Stmt.lowerFrom, Stmt.lowerAllFrom, Counters.take_take, hlabel]
  | .flat h => by rw [lowerFrom_of_flat h, flatten_of_flat h]
  | .result => rfl

theorem lowerAllFrom_of_rewritesAll {c c' : Counters} {body body' : List Stmt} :
    Stmt.RewritesAll c body body' c' →
    Stmt.lowerAllFrom c body = (Stmt.flattenAll body', c')
  | .nil => rfl
  | .cons h hrest => by
    rw [lowerAllFrom_cons, lowerFrom_of_rewrites h, lowerAllFrom_of_rewritesAll hrest]
    rfl

end

/-! ### The form of lowered statements -/

/-- Lowering comes to an end, with a flat program.  It marks the labels from 1 up to as many as the
    conditions and loops of the statement take, each of them once, and jumps to these alone.  There
    are as many hidden bounds as counting loops, and each of them is declared once, if the statement
    declares nothing of its name.  Lowering the program again changes nothing. -/
theorem lower_form {s : Stmt} (hs : s.Structured) :
    (∃ t c, s.Rewrites ⟨0, 0⟩ t c) ∧ (∀ t c, s.Rewrites ⟨0, 0⟩ t c → t.flatten = s.lower) ∧
    (∀ t ∈ s.lower, t.Flat) ∧
    (marks s.lower).Perm ((List.range s.labelCount).map fun k => ⟨k + 1⟩) ∧
    (∀ l ∈ targets s.lower, l ∈ marks s.lower) ∧
    (∀ k, (∀ x ∈ s.introduces, x.name ≠ boundName k) →
      (declarations s.lower).filter (·.name = boundName k) =
        if 0 < k ∧ k ≤ s.loopCount then [⟨boundName k, true, .int⟩] else []) ∧
    (Stmt.block s.lower).lower = s.lower := by
  have hformed : Formed ⟨0, 0⟩ s.labelCount s.loopCount s.introduces s.lower :=
    formed_lowerFrom s hs ⟨0, 0⟩
  have hlabels : Counters.nextLabels ⟨0, 0⟩ s.labelCount =
      (List.range s.labelCount).map fun k => ⟨k + 1⟩ := by
    refine List.map_congr_left fun k _ => ?_
    simp only [Counters.label, JumpLabel.mk.injEq]
    omega
  obtain ⟨t, ht⟩ := exists_rewrites s ⟨0, 0⟩
  refine ⟨⟨t, _, ht⟩, ?_, hformed.flat, hlabels ▸ hformed.marked, hformed.aimed, ?_,
    lower_block_lower hs⟩
  · intro t c h
    exact (congrArg Prod.fst (lowerFrom_of_rewrites h)).symm
  · exact fun k hfree => filter_declarations_lower hs hfree

/-- A condition in a counting loop in a counting loop takes five labels and two hidden bounds. -/
theorem lower_form_nested :
    let i : Variable := ⟨"i", true, .int⟩
    let j : Variable := ⟨"j", true, .int⟩
    let test := Stmt.ifThen (.binary (.read i) BinaryOperator.intLessOrEquals (.read j))
      (.expr (.read i))
    let inner := Stmt.count j (.literal (.int 1)) (.read i) test
    let outer := Stmt.count i (.literal (.int 1)) (.literal (.int 3)) inner
    outer.Structured ∧ (marks outer.lower).Perm [⟨1⟩, ⟨2⟩, ⟨3⟩, ⟨4⟩, ⟨5⟩] ∧
      (declarations outer.lower).filter (·.name = boundName 2) = [⟨boundName 2, true, .int⟩] ∧
      (Stmt.block outer.lower).lower = outer.lower := by
  intro i j test inner outer
  have hi : i.Visible := Variable.visible_of_head (by decide)
  have hj : j.Visible := Variable.visible_of_head (by decide)
  have hs : outer.Structured := trivial
  have hfree : ∀ x ∈ outer.introduces, x.name ≠ boundName 2 :=
    List.forall_mem_cons.2 ⟨hi 2, List.forall_mem_singleton.2 (hj 2)⟩
  obtain ⟨-, -, -, hmarks, -, hbounds, hagain⟩ := lower_form hs
  exact ⟨hs, hmarks, hbounds 2 hfree, hagain⟩

end SnippetLang.Typed

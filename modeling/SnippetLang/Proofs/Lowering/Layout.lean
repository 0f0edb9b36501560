import Mathlib.Data.List.Nodup
import SnippetLang.Proofs.Running.Walking
import SnippetLang.Typed.Flat

/-!
# The layout of lowered statements

What each form of statement is lowered to, with the counters left out of the way, and how the
numbering works out: the labels of a lowered statement are numbered from the counters that it was
lowered with up to those that it leaves, and no label is marked twice.
-/

namespace SnippetLang.Typed

/-! ### Lowered forms -/

section

variable (c : Counters)

theorem lowerFrom_ifThen (e : Expr) (yes : Stmt) :
    (Stmt.ifThen e yes).lowerFrom c =
      (.gotoIf (c.label 0) e false :: ((yes.lowerFrom (c.take 1 0)).1 ++ [.label (c.label 0)]),
        (yes.lowerFrom (c.take 1 0)).2) := rfl

theorem lowerFrom_ifElse (e : Expr) (yes no : Stmt) :
    (Stmt.ifElse e yes no).lowerFrom c =
      (.gotoIf (c.label 0) e false :: ((yes.lowerFrom (c.take 2 0)).1 ++
          (.goto (c.label 1) :: .label (c.label 0) ::
            ((no.lowerFrom (yes.lowerFrom (c.take 2 0)).2).1 ++ [.label (c.label 1)]))),
        (no.lowerFrom (yes.lowerFrom (c.take 2 0)).2).2) := by
  simp [Stmt.lowerFrom]

theorem lowerFrom_whileDo (e : Expr) (body : Stmt) :
    (Stmt.whileDo e body).lowerFrom c =
      (.label (c.label 0) :: .gotoIf (c.label 1) e false ::
          ((body.lowerFrom (c.take 2 0)).1 ++ [.goto (c.label 0), .label (c.label 1)]),
        (body.lowerFrom (c.take 2 0)).2) := rfl

theorem lowerFrom_doWhile (body : Stmt) (e : Expr) :
    (Stmt.doWhile body e).lowerFrom c =
      (.label (c.label 0) :: ((body.lowerFrom (c.take 2 0)).1 ++
          [.gotoIf (c.label 0) e true, .label (c.label 1)]),
        (body.lowerFrom (c.take 2 0)).2) := rfl

/-- A counting loop from its test on. -/
def countingCode (x bound : Variable) (again done : JumpLabel) (body : List Stmt) : List Stmt :=
  .gotoIf done (withinBound x bound) false ::
    (body ++ [.expr (increment x), .goto again, .label done])

theorem lowerFrom_count (x : Variable) (lower upper : Expr) (body : Stmt) :
    (Stmt.count x lower upper body).lowerFrom c =
      (.declare x lower :: .declare c.bound upper :: .label (c.label 0) ::
          countingCode x c.bound (c.label 0) (c.label 1) (body.lowerFrom (c.take 2 1)).1,
        (body.lowerFrom (c.take 2 1)).2) := rfl

theorem lowerAllFrom_cons (s : Stmt) (rest : List Stmt) :
    Stmt.lowerAllFrom c (s :: rest) =
      ((s.lowerFrom c).1 ++ (Stmt.lowerAllFrom (s.lowerFrom c).2 rest).1,
        (Stmt.lowerAllFrom (s.lowerFrom c).2 rest).2) := rfl

end

/-! ### Numbering -/

/-- Code is numbered from some counters up to others: its labels lie in between, each of them is
    marked once, and the counters do not go back. -/
structure Numbered (c : Counters) (code : List Stmt) (c' : Counters) : Prop where
  labels : c.labels ≤ c'.labels
  bounds : c.bounds ≤ c'.bounds
  within : ∀ l ∈ marks code, c.labels < l.id ∧ l.id ≤ c'.labels
  distinct : (marks code).Nodup

namespace Numbered

variable {c c' c'' : Counters} {p q code : List Stmt}

theorem unmarked (c : Counters) (h : marks code = []) : Numbered c code c := by
  constructor
  · exact Nat.le_refl _
  · exact Nat.le_refl _
  · simp [h]
  · simp [h]

theorem append (hp : Numbered c p c') (hq : Numbered c' q c'') : Numbered c (p ++ q) c'' := by
  constructor
  · exact Nat.le_trans hp.labels hq.labels
  · exact Nat.le_trans hp.bounds hq.bounds
  · intro l hl
    rw [marks_append] at hl
    rcases List.mem_append.1 hl with hl | hl
    · exact ⟨(hp.within l hl).1, Nat.le_trans (hp.within l hl).2 hq.labels⟩
    · exact ⟨Nat.lt_of_le_of_lt hp.labels (hq.within l hl).1, (hq.within l hl).2⟩
  · rw [marks_append, List.nodup_append]
    refine ⟨hp.distinct, hq.distinct, ?_⟩
    rintro l hl _ hl' rfl
    exact absurd (hq.within l hl').1 (Nat.not_lt.2 (hp.within l hl).2)

/-- Code around other code marks the labels that were taken before it. -/
theorem enclose {labels bounds : Nat} (h : Numbered (c.take labels bounds) p c')
    (hcode : (marks code).Perm ((List.range labels).map c.label ++ marks p)) :
    Numbered c code c' := by
  have hlabels : c.labels + labels ≤ c'.labels := h.labels
  have hbounds : c.bounds + bounds ≤ c'.bounds := h.bounds
  have hown {l : JumpLabel} (hl : l ∈ (List.range labels).map c.label) :
      c.labels < l.id ∧ l.id ≤ c.labels + labels := by
    obtain ⟨k, hk, rfl⟩ := List.mem_map.1 hl
    have := List.mem_range.1 hk
    simp only [Counters.label]
    omega
  constructor
  · omega
  · omega
  · intro l hl
    rcases List.mem_append.1 (hcode.mem_iff.1 hl) with hl | hl
    · have := hown hl
      omega
    · have := h.within l hl
      simp only [Counters.take] at this
      omega
  · rw [hcode.nodup_iff, List.nodup_append]
    refine ⟨List.nodup_range.map ?_, h.distinct, ?_⟩
    · intro j k hjk
      have := congrArg JumpLabel.id hjk
      simpa [Counters.label] using this
    · rintro l hl _ hl' rfl
      have hlow := (h.within l hl').1
      simp only [Counters.take] at hlow
      have := hown hl
      omega

end Numbered

mutual

/-- A lowered statement is numbered from the counters it was lowered with. -/
theorem numbered_lowerFrom : (s : Stmt) → s.Structured → (c : Counters) →
    Numbered c (s.lowerFrom c).1 (s.lowerFrom c).2
  | .block body, hs, c => numbered_lowerAllFrom body hs c
  | .declare x init, _, c => .unmarked c rfl
  | .expr e, _, c => .unmarked c rfl
  | .ifThen e yes, hs, c => by
    rw [lowerFrom_ifThen]
    refine (numbered_lowerFrom yes hs (c.take 1 0)).enclose ?_
    simp only [marks, List.filterMap_cons, List.filterMap_append, Stmt.label?]
    exact List.perm_append_singleton _ _
  | .ifElse e yes no, hs, c => by
    rw [lowerFrom_ifElse]
    refine ((numbered_lowerFrom yes hs.1 (c.take 2 0)).append
      (numbered_lowerFrom no hs.2 _)).enclose ?_
    simp only [marks, List.filterMap_cons, List.filterMap_append, Stmt.label?]
    refine List.perm_middle.trans ?_
    rw [← List.append_assoc]
    exact (List.perm_append_singleton _ _).cons _
  | .whileDo e body, hs, c => by
    rw [lowerFrom_whileDo]
    refine (numbered_lowerFrom body hs (c.take 2 0)).enclose ?_
    simp only [marks, List.filterMap_cons, List.filterMap_append, Stmt.label?]
    exact (List.perm_append_singleton _ _).cons _
  | .doWhile body e, hs, c => by
    rw [lowerFrom_doWhile]
    refine (numbered_lowerFrom body hs (c.take 2 0)).enclose ?_
    simp only [marks, List.filterMap_cons, List.filterMap_append, Stmt.label?]
    exact (List.perm_append_singleton _ _).cons _
  | .count x lower upper body, hs, c => by
    rw [lowerFrom_count]
    refine (numbered_lowerFrom body hs (c.take 2 1)).enclose ?_
    simp only [marks, countingCode, List.filterMap_cons, List.filterMap_append, Stmt.label?]
    exact (List.perm_append_singleton _ _).cons _

theorem numbered_lowerAllFrom : (body : List Stmt) → Stmt.AllStructured body → (c : Counters) →
    Numbered c (Stmt.lowerAllFrom c body).1 (Stmt.lowerAllFrom c body).2
  | [], _, c => .unmarked c rfl
  | s :: rest, hs, c => by
    rw [lowerAllFrom_cons]
    exact (numbered_lowerFrom s hs.1 c).append (numbered_lowerAllFrom rest hs.2 _)

end

/-- No label is marked twice in a lowered program. -/
theorem nodup_marks_lower {s : Stmt} (hs : s.Structured) : (marks s.lower).Nodup :=
  (numbered_lowerFrom s hs ⟨0, 0⟩).distinct

/-! ### Where the parts of a statement stand -/

section

variable {program : List Stmt} {i : Nat} {first last middle : JumpLabel} {e : Expr}
  {code code' : List Stmt}

/-- A conditional statement stands at an index, and what comes behind it at another. -/
structure IfThenAt (program : List Stmt) (i : Nat) (last : JumpLabel) (e : Expr)
    (code : List Stmt) (j : Nat) : Prop where
  test : program[i]? = some (.gotoIf last e false)
  body : Placed program (i + 1) code
  close : program[i + 1 + code.length]? = some (.label last)
  exit : labelTarget? last program = some j
  behind : i + 1 + code.length + 1 = j

theorem ifThenAt (hn : (marks program).Nodup)
    (h : Placed program i (.gotoIf last e false :: (code ++ [.label last]))) :
    IfThenAt program i last e code
      (i + (Stmt.gotoIf last e false :: (code ++ [.label last])).length) := by
  have hj : i + 1 + code.length + 1 =
      i + (Stmt.gotoIf last e false :: (code ++ [.label last])).length := by
    simp only [List.length_cons, List.length_append, List.length_nil]
    omega
  rw [← hj]
  exact {
    test := h.head
    body := h.tail.left
    close := h.tail.right.head
    exit := labelTarget?_of_nodup hn h.tail.right.head
    behind := rfl }

/-- A conditional statement with two branches stands at an index. -/
structure IfElseAt (program : List Stmt) (i : Nat) (middle last : JumpLabel) (e : Expr)
    (code code' : List Stmt) (j : Nat) : Prop where
  test : program[i]? = some (.gotoIf middle e false)
  yes : Placed program (i + 1) code
  skip : program[i + 1 + code.length]? = some (.goto last)
  other : labelTarget? middle program = some (i + 1 + code.length + 2)
  no : Placed program (i + 1 + code.length + 2) code'
  close : program[i + 1 + code.length + 2 + code'.length]? = some (.label last)
  exit : labelTarget? last program = some j
  behind : i + 1 + code.length + 2 + code'.length + 1 = j

theorem ifElseAt (hn : (marks program).Nodup)
    (h : Placed program i (.gotoIf middle e false :: (code ++
      (.goto last :: .label middle :: (code' ++ [.label last]))))) :
    IfElseAt program i middle last e code code'
      (i + (Stmt.gotoIf middle e false :: (code ++
        (.goto last :: .label middle :: (code' ++ [.label last])))).length) := by
  have hj : i + 1 + code.length + 2 + code'.length + 1 =
      i + (Stmt.gotoIf middle e false :: (code ++
        (.goto last :: .label middle :: (code' ++ [.label last])))).length := by
    simp only [List.length_cons, List.length_append, List.length_nil]
    omega
  rw [← hj]
  exact {
    test := h.head
    yes := h.tail.left
    skip := h.tail.right.head
    other := labelTarget?_of_nodup hn h.tail.right.tail.head
    no := h.tail.right.tail.tail.left
    close := h.tail.right.tail.tail.right.head
    exit := labelTarget?_of_nodup hn h.tail.right.tail.tail.right.head
    behind := rfl }

/-- A loop that tests first stands at an index. -/
structure WhileAt (program : List Stmt) (i : Nat) (first last : JumpLabel) (e : Expr)
    (code : List Stmt) (j : Nat) : Prop where
  enter : program[i]? = some (.label first)
  again : labelTarget? first program = some (i + 1)
  test : program[i + 1]? = some (.gotoIf last e false)
  body : Placed program (i + 2) code
  back : program[i + 2 + code.length]? = some (.goto first)
  exit : labelTarget? last program = some j
  behind : i + 2 + code.length + 2 = j

theorem whileAt (hn : (marks program).Nodup)
    (h : Placed program i (.label first :: .gotoIf last e false ::
      (code ++ [.goto first, .label last]))) :
    WhileAt program i first last e code
      (i + (Stmt.label first :: .gotoIf last e false ::
        (code ++ [.goto first, .label last])).length) := by
  have hj : i + 2 + code.length + 2 =
      i + (Stmt.label first :: .gotoIf last e false ::
        (code ++ [.goto first, .label last])).length := by
    simp only [List.length_cons, List.length_append, List.length_nil]
    omega
  rw [← hj]
  exact {
    enter := h.head
    again := labelTarget?_of_nodup hn h.head
    test := h.tail.head
    body := h.tail.tail.left
    back := h.tail.tail.right.head
    exit := labelTarget?_of_nodup hn h.tail.tail.right.tail.head
    behind := rfl }

/-- A loop that tests last stands at an index. -/
structure DoAt (program : List Stmt) (i : Nat) (first last : JumpLabel) (e : Expr)
    (code : List Stmt) (j : Nat) : Prop where
  enter : program[i]? = some (.label first)
  again : labelTarget? first program = some (i + 1)
  body : Placed program (i + 1) code
  test : program[i + 1 + code.length]? = some (.gotoIf first e true)
  close : program[i + 1 + code.length + 1]? = some (.label last)
  behind : i + 1 + code.length + 2 = j

theorem doAt (hn : (marks program).Nodup)
    (h : Placed program i (.label first :: (code ++ [.gotoIf first e true, .label last]))) :
    DoAt program i first last e code
      (i + (Stmt.label first :: (code ++ [.gotoIf first e true, .label last])).length) := by
  have hj : i + 1 + code.length + 2 =
      i + (Stmt.label first :: (code ++ [.gotoIf first e true, .label last])).length := by
    simp only [List.length_cons, List.length_append, List.length_nil]
    omega
  rw [← hj]
  exact {
    enter := h.head
    again := labelTarget?_of_nodup hn h.head
    body := h.tail.left
    test := h.tail.right.head
    close := h.tail.right.tail.head
    behind := rfl }

/-- A counting loop stands at an index from its test on; the label to start again at is the
    statement before. -/
structure CountingAt (program : List Stmt) (i : Nat) (x bound : Variable)
    (first last : JumpLabel) (code : List Stmt) (j : Nat) : Prop where
  again : labelTarget? first program = some i
  test : program[i]? = some (.gotoIf last (withinBound x bound) false)
  body : Placed program (i + 1) code
  step : program[i + 1 + code.length]? = some (.expr (increment x))
  back : program[i + 1 + code.length + 1]? = some (.goto first)
  exit : labelTarget? last program = some j
  behind : i + 1 + code.length + 3 = j

theorem countingAt (hn : (marks program).Nodup) {x bound : Variable}
    (h : Placed program i (.label first :: countingCode x bound first last code)) :
    CountingAt program (i + 1) x bound first last code
      (i + (Stmt.label first :: countingCode x bound first last code).length) := by
  have hj : i + 1 + 1 + code.length + 3 =
      i + (Stmt.label first :: countingCode x bound first last code).length := by
    simp only [countingCode, List.length_cons, List.length_append, List.length_nil]
    omega
  rw [← hj]
  exact {
    again := labelTarget?_of_nodup hn h.head
    test := h.tail.head
    body := h.tail.tail.left
    step := h.tail.tail.right.head
    back := h.tail.tail.right.tail.head
    exit := labelTarget?_of_nodup hn h.tail.tail.right.tail.tail.head
    behind := rfl }

end

end SnippetLang.Typed

import Mathlib.Data.List.Forall2
import SnippetLang.Proofs.Safety.Evaluation
import SnippetLang.Proofs.Scoping.Separate

/-!
# Scopes beside bindings

The scopes of the lexical interpreter are mirrored in the bindings of a run: every variable in sight
reads the same in both.  Separate declarations keep it so, and then expressions have the same values
on either side.
-/

namespace SnippetLang.Lexical

open Typed
open Typing (Context Sees)

/-! ### Contexts whose variables are told apart -/

/-- Names tell the variables of a level apart, and no variable shares its cell with one further
    out. -/
def Distinct : Context → Prop
  | [] => True
  | level :: outer =>
    (∀ x ∈ level, ∀ y ∈ level, x.name = y.name → x = y) ∧
      (∀ x ∈ level, x.Apart outer.flatten) ∧ Distinct outer

theorem Distinct.declare {level : List Variable} {outer : Context} {x : Variable}
    (h : Distinct (level :: outer)) (hfresh : ∀ y ∈ level, y.name ≠ x.name)
    (hx : x.Apart (level :: outer).flatten) : Distinct ((level ++ [x]) :: outer) := by
  obtain ⟨hnames, hlevel, houter⟩ := h
  refine ⟨?_, ?_, houter⟩
  · intro y hy z hz hyz
    rcases List.mem_append.1 hy with hy' | hy'
    · rcases List.mem_append.1 hz with hz' | hz'
      · exact hnames y hy' z hz' hyz
      · obtain rfl := List.mem_singleton.1 hz'
        exact absurd hyz (hfresh y hy')
    · obtain rfl := List.mem_singleton.1 hy'
      rcases List.mem_append.1 hz with hz' | hz'
      · exact absurd hyz.symm (hfresh z hz')
      · exact (List.mem_singleton.1 hz').symm
  · intro y hy
    rcases List.mem_append.1 hy with hy' | hy'
    · exact hlevel y hy'
    · obtain rfl := List.mem_singleton.1 hy'
      exact fun z hz => hx z (List.mem_append_right level hz)

theorem Distinct.after {Γ : Context} (h : Distinct Γ) : (s : Stmt) → s.InScope Γ →
    {used : List Variable} → s.Separate used Γ → Distinct (after Γ s)
  | .block _, _, _, _ => by rwa [after_of_declares_nil rfl]
  | .declare x init, hs, _, hsep => by
    cases Γ with
    | nil => trivial
    | cons level outer => exact h.declare hs.2 hsep
  | .expr _, _, _, _ => by rwa [after_of_declares_nil rfl]
  | .ifThen _ yes, hs, _, hsep => by
    have hyes := h.after yes hs.2 hsep.1
    cases Γ <;> exact hyes
  | .ifElse _ yes no, hs, _, hsep => by
    rw [← after_ifElse]
    exact (h.after yes hs.2.1 hsep.1).after no hs.2.2 hsep.2.1
  | .whileDo condition body, _, _, hsep => by
    have hnil : (Stmt.whileDo condition body).declares = [] := hsep.2
    rwa [after_of_declares_nil hnil]
  | .doWhile body _, hs, _, hsep => by
    have hbody := h.after body hs.1 hsep
    cases Γ <;> exact hbody
  | .count _ _ _ _, _, _, _ => by rwa [after_of_declares_nil rfl]

/-- The variables in sight are told apart, and all of them were declared. -/
structure Known (used : List Variable) (Γ : Context) : Prop where
  distinct : Distinct Γ
  used : Γ.flatten ⊆ used

theorem flatten_after_subset (Γ : Context) (s : Stmt) :
    (after Γ s).flatten ⊆ s.introduces ++ Γ.flatten := by
  cases Γ with
  | nil => exact List.nil_subset _
  | cons level outer =>
    intro x hx
    simp only [after, List.flatten_cons, List.mem_append] at hx ⊢
    rcases hx with (hx | hx) | hx
    · exact .inr (.inl hx)
    · exact .inl (s.declares_subset_introduces hx)
    · exact .inr (.inr hx)

namespace Known

variable {used used' : List Variable} {Γ : Context} {x : Variable}

theorem mono (h : Known used Γ) (hsub : used ⊆ used') : Known used' Γ :=
  ⟨h.distinct, fun _ hx => hsub (h.used hx)⟩

theorem after (h : Known used Γ) {s : Stmt} (hs : s.InScope Γ) (hsep : s.Separate used Γ) :
    Known (s.introduces ++ used) (after Γ s) := by
  refine ⟨h.distinct.after s hs hsep, fun x hx => ?_⟩
  rcases List.mem_append.1 (flatten_after_subset Γ s hx) with hx | hx
  · exact List.mem_append_left _ hx
  · exact List.mem_append_right _ (h.used hx)

theorem enter (h : Known used Γ) : Known used ([] :: Γ) :=
  ⟨⟨nofun, nofun, h.distinct⟩, h.used⟩

theorem counter (h : Known used Γ) (hx : x.Apart Γ.flatten) : Known (x :: used) ([x] :: Γ) := by
  constructor
  · exact h.enter.distinct.declare nofun hx
  · exact List.cons_subset_cons x h.used

end Known

/-! ### Scopes that read like bindings -/

/-- The variables of a level read in the cells of a scope as they read in bindings. -/
def Shows (b : Bindings) (level : List Variable) (cells : Cells) : Prop :=
  ∀ x ∈ level, (cells.lookup x).getD x.ty.default = b.read x

section

variable {b : Bindings} {level : List Variable} {cells : Cells} {Γ : Context} {scopes : List Cells}
  {name : String} {x : Variable}

theorem declaresName_of_mem (hx : x ∈ level) : declaresName level x.name = true :=
  List.any_eq_true.2 ⟨x, hx, beq_self_eq_true x.name⟩

theorem not_declaresName (h : ∀ y ∈ level, y.name ≠ name) : ¬ declaresName level name = true := by
  simpa [declaresName] using h

theorem Shows.set (h : Shows b level cells) (hx : ∀ y ∈ level, x.same y = false) (v : Value) :
    Shows (b.set x v) level cells := by
  intro y hy
  rw [Bindings.read_set, hx y hy]
  exact h y hy

theorem shows_set (h : List.Forall₂ (Shows b) Γ scopes) (hx : ∀ y ∈ Γ.flatten, x.same y = false)
    (v : Value) : List.Forall₂ (Shows (b.set x v)) Γ scopes := by
  induction h with
  | nil => exact .nil
  | cons hlevel _ ih =>
    obtain ⟨hx, hxs⟩ := List.forall_mem_append.1 hx
    exact .cons (hlevel.set hx v) (ih hxs)

/-- A cell that a variable is given shows in its level. -/
theorem Shows.cell (h : Shows b level cells) (hx : ∀ y ∈ level, x.name = y.name → x = y)
    (v : Value) : Shows (b.set x v) (level ++ [x]) ((x, v) :: cells) := by
  intro y hy
  rw [Bindings.read_set, List.lookup_cons]
  by_cases hyx : y = x
  · subst hyx
    simp
  · have hlevel : y ∈ level := by simpa [hyx] using hy
    have hsame : ¬ x.same y = true := fun hsame =>
      hyx (hx y hlevel (Variable.same_iff.1 hsame).1).symm
    rw [beq_eq_false_iff_ne.2 hyx, if_neg hsame]
    exact h y hlevel

theorem mem_flatten_of_sees (hx : Sees Γ name x) : x ∈ Γ.flatten := by
  induction hx with
  | here hx _ => exact List.mem_append_left _ hx
  | outside _ _ ih => exact List.mem_append_right _ ih

/-- A variable is fetched from the scope that its name means. -/
theorem fetch_eq (h : List.Forall₂ (Shows b) Γ scopes) (hx : Sees Γ name x) :
    fetch x Γ scopes = b.read x := by
  induction hx generalizing scopes with
  | here hx _ =>
    cases h with
    | cons hlevel _ =>
      unfold fetch
      rw [if_pos (declaresName_of_mem hx)]
      exact hlevel _ hx
  | outside hne hx ih =>
    cases h with
    | cons _ hrest =>
      unfold fetch
      rw [if_neg (hx.name_eq ▸ not_declaresName hne)]
      exact ih hrest

/-- A variable is put where it shows, and no other one in sight is touched. -/
theorem shows_put (h : List.Forall₂ (Shows b) Γ scopes) (hΓ : Distinct Γ) (hx : Sees Γ name x)
    (v : Value) : List.Forall₂ (Shows (b.set x v)) Γ (put x v Γ scopes) := by
  induction hx generalizing scopes with
  | here hx _ =>
    cases h with
    | cons hlevel hrest =>
      obtain ⟨hnames, hapart, -⟩ := hΓ
      unfold put
      rw [if_pos (declaresName_of_mem hx)]
      have hcell := hlevel.cell (hnames _ hx) v
      refine .cons (fun y hy => hcell y (List.mem_append_left _ hy)) (shows_set hrest ?_ v)
      intro y hy
      rw [Variable.same_comm]
      exact hapart _ hx y hy
  | outside hne hx ih =>
    cases h with
    | cons hlevel hrest =>
      obtain ⟨-, hapart, houter⟩ := hΓ
      unfold put
      rw [if_neg (hx.name_eq ▸ not_declaresName hne)]
      refine .cons (hlevel.set (fun y hy => ?_) v) (ih hrest houter)
      exact hapart y hy _ (mem_flatten_of_sees hx)

theorem flatten_put_subset (x : Variable) (v : Value) (Γ : Context) (scopes : List Cells) :
    (put x v Γ scopes).flatten ⊆ (x, v) :: scopes.flatten := by
  induction Γ generalizing scopes with
  | nil => exact List.subset_cons_self _ _
  | cons level outer ih =>
    cases scopes with
    | nil => exact List.nil_subset _
    | cons cells scopes =>
      unfold put
      split
      · exact List.Subset.refl _
      · intro entry hentry
        rcases List.mem_append.1 hentry with hentry | hentry
        · exact List.mem_cons_of_mem _ (List.mem_append_left _ hentry)
        · rcases List.mem_cons.1 (ih scopes hentry) with rfl | hentry
          · exact List.mem_cons_self
          · exact List.mem_cons_of_mem _ (List.mem_append_right _ hentry)

end

/-! ### Memories beside stores -/

/-- The variables in sight read the same in a memory and a store, and a variable that shares its
    cell with none declared so far was given no value. -/
structure Mirrors (used : List Variable) (Γ : Context) (m : Memory) (σ : Store) : Prop where
  console : m.console = σ.console
  scopes : List.Forall₂ (Shows σ.bindings) Γ m.scopes
  own : ∀ entry ∈ m.scopes.flatten, entry.1 ∈ used
  unused : ∀ x : Variable, x.Apart used → σ.bindings.read x = x.ty.default

namespace Mirrors

variable {used used' : List Variable} {Γ : Context} {m : Memory} {σ : Store} {x : Variable}

theorem mono (h : Mirrors used Γ m σ) (hsub : used ⊆ used') : Mirrors used' Γ m σ where
  console := h.console
  scopes := h.scopes
  own entry hentry := hsub (h.own entry hentry)
  unused x hx := h.unused x fun y hy => hx y (hsub hy)

theorem withConsole (h : Mirrors used Γ m σ) (c : Console) :
    Mirrors used Γ { m with console := c } { σ with console := c } :=
  ⟨rfl, h.scopes, h.own, h.unused⟩

/-- Setting a declared variable leaves those alone that share their cell with none declared. -/
theorem unused_set (h : Mirrors used Γ m σ) (hx : x ∈ used) (v : Value) (y : Variable)
    (hy : y.Apart used) : (σ.bindings.set x v).read y = y.ty.default := by
  rw [Bindings.read_set, hy x hx]
  exact h.unused y hy

theorem write (h : Mirrors used Γ m σ) (hΓ : Known used Γ) {name : String} (hx : Sees Γ name x)
    (v : Value) : Mirrors used Γ { m with scopes := put x v Γ m.scopes }
      { σ with bindings := σ.bindings.set x v } := by
  have hused : x ∈ used := hΓ.used (mem_flatten_of_sees hx)
  refine ⟨h.console, shows_put h.scopes hΓ.distinct hx v, ?_, h.unused_set hused v⟩
  intro entry hentry
  rcases List.mem_cons.1 (flatten_put_subset x v Γ m.scopes hentry) with rfl | hentry
  · exact hused
  · exact h.own entry hentry

theorem declare (h : Mirrors used Γ m σ) (hx : x.Apart Γ.flatten)
    (hfresh : ∀ y ∈ Γ.headD [], y.name ≠ x.name) (init : Expr) (v : Value) :
    Mirrors (x :: used) (after Γ (.declare x init)) { m with scopes := addCell x v m.scopes }
      { σ with bindings := σ.bindings.set x v } := by
  have h' : Mirrors (x :: used) Γ m σ := h.mono (List.subset_cons_self x used)
  refine ⟨h.console, ?_, ?_, h'.unused_set List.mem_cons_self v⟩
  · have hscopes := h.scopes
    cases Γ with
    | nil =>
      cases m
      cases hscopes
      exact .nil
    | cons level outer =>
      obtain ⟨scopes, console⟩ := m
      cases hscopes with
      | cons hlevel hrest =>
        refine .cons (hlevel.cell (fun y hy hname => absurd hname.symm (hfresh y hy)) v) ?_
        refine shows_set hrest (fun y hy => ?_) v
        rw [Variable.same_comm]
        exact hx y (List.mem_append_right level hy)
  · intro entry hentry
    obtain ⟨scopes, console⟩ := m
    cases scopes with
    | nil => cases hentry
    | cons cells scopes =>
      rcases List.mem_cons.1 hentry with rfl | hentry
      · exact List.mem_cons_self
      · exact h'.own entry hentry

/-- A value given to a variable that shares its cell with none in sight does not show. -/
theorem hide (h : Mirrors used Γ m σ) (hx : x.Apart Γ.flatten) (v : Value) :
    Mirrors (x :: used) Γ m { σ with bindings := σ.bindings.set x v } := by
  have h' : Mirrors (x :: used) Γ m σ := h.mono (List.subset_cons_self x used)
  refine ⟨h.console, shows_set h.scopes (fun y hy => ?_) v, h'.own,
    h'.unused_set List.mem_cons_self v⟩
  rw [Variable.same_comm]
  exact hx y hy

theorem enter (h : Mirrors used Γ m σ) :
    Mirrors used ([] :: Γ) { m with scopes := [] :: m.scopes } σ :=
  ⟨h.console, .cons nofun h.scopes, h.own, h.unused⟩

theorem counter (h : Mirrors used Γ m σ) (hx : x ∈ used) :
    Mirrors used ([x] :: Γ) { m with scopes := [(x, σ.bindings.read x)] :: m.scopes } σ := by
  refine ⟨h.console, .cons ?_ h.scopes, ?_, h.unused⟩
  · intro y hy
    obtain rfl := List.mem_singleton.1 hy
    simp
  · intro entry hentry
    rcases List.mem_cons.1 hentry with rfl | hentry
    · exact hx
    · exact h.own entry hentry

theorem leave {level : List Variable} (h : Mirrors used (level :: Γ) m σ) :
    Mirrors used Γ { m with scopes := m.scopes.tail } σ := by
  obtain ⟨scopes, console⟩ := m
  obtain ⟨hconsole, hscopes, hown, hunused⟩ := h
  cases hscopes with
  | cons _ hrest =>
    refine ⟨hconsole, hrest, fun entry hentry => ?_, hunused⟩
    exact hown entry (List.mem_append_right _ hentry)

/-- What a statement declared need not be in sight. -/
theorem forget {s : Stmt} (h : Mirrors used (after Γ s) m σ) : Mirrors used Γ m σ := by
  refine ⟨h.console, ?_, h.own, h.unused⟩
  have hscopes := h.scopes
  cases Γ with
  | nil => exact hscopes
  | cons level outer =>
    generalize m.scopes = scopes at hscopes
    cases hscopes with
    | cons hlevel hrest => exact .cons (fun y hy => hlevel y (List.mem_append_left _ hy)) hrest

/-- Declarations that are passed over come into sight without a value, if their variables share
    their cells with none declared before. -/
theorem passOver {s : Stmt} (h : Mirrors used Γ m σ) (hs : ∀ x ∈ s.declares, x.Apart used) :
    Mirrors used (after Γ s) m σ := by
  refine ⟨h.console, ?_, h.own, h.unused⟩
  have hscopes := h.scopes
  have hown := h.own
  generalize m.scopes = scopes at hscopes hown ⊢
  cases hscopes with
  | nil => exact .nil
  | @cons level cells outer rest hlevel hrest =>
    refine .cons (fun y hy => ?_) hrest
    rcases List.mem_append.1 hy with hy | hy
    · exact hlevel y hy
    · have hnone : cells.lookup y = none := by
        rw [List.lookup_eq_none_iff]
        intro entry hentry
        have hmem : entry.1 ∈ used := hown entry (List.mem_append_left _ hentry)
        rw [bne_iff_ne]
        rintro rfl
        exact Bool.noConfusion ((Variable.same_self _).symm.trans (hs _ hy _ hmem))
      rw [hnone, h.unused y (hs y hy)]
      rfl

end Mirrors

end SnippetLang.Lexical

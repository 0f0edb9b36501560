import SnippetLang.Proofs.Parsing.Gaps

/-!
# Declared names

The names that the statements of a tree declare are names of tokens, apart from those that were
missing, and a name of a token begins like a word.
-/

namespace SnippetLang

/-! ### Names of tokens -/

namespace Lexer

/-- A text begins like a word. -/
def Word (name : String) : Prop := ∃ c ∈ name.toList.head?, isWordStart c = true

theorem word_of_next {c : Char} {cs : List Char} {name : String}
    (h : (next c cs).kind = some (.ident name)) : Word name := by
  unfold next at h
  split at h
  · cases h
  split at h
  · cases h
  split at h
  · cases h
  split at h
  · next hstart =>
    have hkind := Option.some.inj h
    simp only [wordKind] at hkind
    split at hkind
    · cases hkind
    · cases hkind
      exact ⟨c, by simp, hstart⟩
  split at h
  · unfold string at h
    split at h <;> cases h
  split at h <;> cases h

theorem word_of_scan (offset : Nat) (cs : List Char) {t : Token} {name : String}
    (ht : t ∈ (scan offset cs).1) (hname : t.kind = .ident name) : Word name := by
  fun_induction scan offset cs with
  | case1 offset =>
    obtain rfl := List.mem_singleton.1 ht
    cases hname
  | case2 offset c cs piece span tokens issues hscan ih =>
    rw [hscan] at ih
    cases hkind : piece.kind with
    | none =>
      simp only [hkind] at ht
      exact ih ht
    | some kind =>
      simp only [hkind, List.mem_cons] at ht
      rcases ht with rfl | ht
      · obtain rfl : kind = .ident name := hname
        exact word_of_next hkind
      · exact ih ht

end Lexer

/-! ### Names in trees -/

namespace Tree

mutual

/-- All names that a statement declares have a property. -/
def Stmt.Names (p : String → Prop) : Stmt → Prop
  | .block _ body _ => Stmt.AllNames p body
  | .declare _ _ name _ => p name.name
  | .ifThen _ _ yes => yes.Names p
  | .ifElse _ _ yes no => yes.Names p ∧ no.Names p
  | .whileDo _ _ body => body.Names p
  | .doWhile _ body _ => body.Names p
  | .count _ name _ _ body => p name.name ∧ body.Names p
  | .expr _ => True

def Stmt.AllNames (p : String → Prop) : List Stmt → Prop
  | [] => True
  | s :: rest => s.Names p ∧ Stmt.AllNames p rest

end

end Tree

namespace Reader

/-- All names that are still to be read have a property, and so has a missing one. -/
structure Names (p : String → Prop) (r : Reader) : Prop where
  missing : p ""
  ahead : ∀ t ∈ r.cursor.rest, ∀ name, t.kind = .ident name → p name

variable {p : String → Prop} {r s : Reader}

theorem Names.reaches (h : r.Names p) (hreaches : r.Reaches s) : s.Names p :=
  ⟨h.missing, fun t ht => h.ahead t (hreaches.rest.subset ht)⟩

theorem Names.ident (h : r.Names p) : p r.ident.1.name := by
  unfold Reader.ident
  split
  · next name hkind => exact h.ahead r.cursor.current List.mem_cons_self name hkind
  · exact h.missing

end Reader

namespace Parser

open SnippetLang.Tree Reader

variable {p : String → Prop}

mutual

/-- A statement declares names that were to be read. -/
theorem names_statement : (bound : Nat) → (r : Reader) → r.Names p →
    (statement bound r).1.Names p
  | 0, _, _ => trivial
  | bound + 1, r, h => by
    have hadvanced := h.reaches r.reaches_advance
    rw [statement]
    split
    · exact names_statements bound true _ hadvanced
    · exact names_declaration bound false r h
    · exact names_declaration bound true r h
    · split
      next condition before hcondition =>
      have hbefore : r.advance.Reaches before := (reaches_expression bound _).part hcondition
      split
      next yes after hyes =>
      have hafter : before.Reaches after := (reaches_statement bound _).part hyes
      have hnames := hyes ▸ names_statement bound before (hadvanced.reaches hbefore)
      split
      · refine ⟨hnames, names_statement bound _ (hadvanced.reaches ?_)⟩
        exact (hbefore.trans hafter).trans (reaches_advance _)
      · exact hnames
    · exact names_statement bound _ (hadvanced.reaches (reaches_expression bound _))
    · exact names_statement bound _ hadvanced
    · have hlower := ((reaches_ident r.advance).trans (reaches_expect _ (.mark .eq))).trans
        (reaches_expression bound _)
      have hupper := (hlower.trans (reaches_expect _ (.word .toWord))).trans
        (reaches_expression bound _)
      exact ⟨hadvanced.ident, names_statement bound _ (hadvanced.reaches hupper)⟩
    · trivial

theorem names_declaration : (bound : Nat) → (readOnly : Bool) → (r : Reader) → r.Names p →
    (declaration bound readOnly r).1.Names p
  | 0, _, _, _ => trivial
  | _ + 1, _, r, h => by
    rw [declaration]
    exact (h.reaches r.reaches_advance).ident

theorem names_statements : (bound : Nat) → (inBlock : Bool) → (r : Reader) → r.Names p →
    Stmt.AllNames p (statements bound inBlock r).1
  | 0, _, _, _ => trivial
  | bound + 1, inBlock, r, h => by
    rw [statements]
    split
    · trivial
    · refine ⟨names_statement bound r h, names_statements bound inBlock _ (h.reaches ?_)⟩
      split
      · exact (reaches_statement bound r).trans (reaches_advance _)
      · exact reaches_statement bound r

end

end Parser

theorem names_of_parseTokens {p : String → Prop} (hmissing : p "") {tokens : List Token}
    (h : ∀ t ∈ tokens, ∀ name, t.kind = .ident name → p name) :
    Tree.Stmt.AllNames p (parseTokens tokens).1.statements := by
  refine Parser.names_statements (Parser.depthBound tokens.length) false
    (Reader.ofTokens tokens) ⟨hmissing, ?_⟩
  cases tokens with
  | nil =>
    intro t ht name hname
    obtain rfl := List.mem_singleton.1 ht
    cases hname
  | cons t ts => exact h

/-- The names that a source declares begin like words, apart from those that are missing. -/
theorem names_of_parse (source : String) :
    Tree.Stmt.AllNames (fun name => name = "" ∨ Lexer.Word name) (parse source).root.statements :=
  names_of_parseTokens (.inl rfl) fun _ ht _ hname =>
    .inr (Lexer.word_of_scan 0 source.toList ht hname)

end SnippetLang

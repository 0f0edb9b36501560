import Mathlib.Data.List.DropRight
import Mathlib.Data.Prod.Lex
import SnippetLang.Source.Lines

/-!
# Positions are exact

The position of an offset tells how many line feeds stand before it, and how far it is behind the
last of them.  The table splits at every offset into the starts of lines up to it and those behind
it, and the search finds the last one of the first part, whichever elements it happens to look at.
-/

namespace SnippetLang.Lines

/-! ### The search -/

section

variable {starts : Array UInt32} {offset : UInt32} {k base size : Nat}

/-- The elements of an array that are at or before an offset are those up to an index. -/
def SplitsAt (starts : Array UInt32) (offset : UInt32) (k : Nat) : Prop :=
  k < starts.size ∧ ∀ i < starts.size, starts.getD i 0 ≤ offset ↔ i ≤ k

/-- The part that is searched always holds the last element at or before the offset. -/
theorem narrow_eq (h : SplitsAt starts offset k) (hbase : base ≤ k) (hend : k < base + size)
    (hfits : base + size ≤ starts.size) : narrow starts offset base size = k := by
  fun_induction narrow starts offset base size with
  | case1 base size hone => omega
  | case2 base size hmany middle ih =>
    have hmiddle := h.2 middle (by omega)
    by_cases hbefore : offset < starts.getD middle 0
    · have hlt : k < middle := Nat.not_le.1 fun hle => UInt32.not_le.2 hbefore (hmiddle.2 hle)
      simp only [dif_pos hbefore, if_pos hbefore] at ih ⊢
      exact ih hbase (by omega) (by omega)
    · have hle : middle ≤ k := hmiddle.1 (UInt32.not_lt.1 hbefore)
      simp only [dif_neg hbefore, if_neg hbefore] at ih ⊢
      exact ih hle (by omega) (by omega)

/-- The search finds the last start at or before the offset, be it hit or missed. -/
theorem indexOf_eq {lines : Lines} (h : SplitsAt lines.starts offset k) :
    lines.indexOf offset = k := by
  have hnarrow : narrow lines.starts offset 0 lines.starts.size = k :=
    narrow_eq h (Nat.zero_le k) (by simpa using h.1) (by simp)
  have hsome : ¬ lines.starts.isEmpty = true := by
    intro hempty
    have hsize := h.1
    simp [Array.isEmpty_iff.1 hempty] at hsize
  unfold indexOf search
  rw [if_neg hsome, hnarrow]
  have hreached := (h.2 k h.1).2 (Nat.le_refl k)
  by_cases hhit : lines.starts.getD k 0 = offset
  · simp only [if_pos hhit]
  · have hlt : lines.starts.getD k 0 < offset := UInt32.lt_of_le_of_ne hreached hhit
    simp only [if_neg hhit, if_pos hlt, Nat.add_sub_cancel]

end

/-! ### Line feeds -/

/-- The offset just behind the last line feed of some bytes, or zero when there is none. -/
def lastFeedEnd (bs : List UInt8) : Nat := (bs.rdropWhile (· ≠ lineFeed)).length

section

variable {bs cs : List UInt8} {n offset : Nat}

theorem lastFeedEnd_concat (bs : List UInt8) (b : UInt8) :
    lastFeedEnd (bs ++ [b]) = if b = lineFeed then bs.length + 1 else lastFeedEnd bs := by
  unfold lastFeedEnd
  rw [List.rdropWhile_concat]
  by_cases hb : b = lineFeed <;> simp [hb]

/-- Bytes without line feeds do not move the end of the last one. -/
theorem lastFeedEnd_append (h : lineFeed ∉ cs) : lastFeedEnd (bs ++ cs) = lastFeedEnd bs := by
  induction cs using List.reverseRecOn with
  | nil => rw [List.append_nil]
  | append_singleton cs c ih =>
    rw [List.mem_append, not_or, List.mem_singleton] at h
    rw [← List.append_assoc, lastFeedEnd_concat, if_neg (Ne.symm h.2), ih h.1]

theorem lastFeedEnd_le (bs : List UInt8) : lastFeedEnd bs ≤ bs.length :=
  (List.rdropWhile_prefix _ bs).length_le

theorem feedEnds_append (offset : Nat) (bs cs : List UInt8) :
    feedEnds offset (bs ++ cs) = feedEnds offset bs ++ feedEnds (offset + bs.length) cs := by
  induction bs generalizing offset with
  | nil => rfl
  | cons b bs ih =>
    have hlength : offset + (b :: bs).length = offset + 1 + bs.length := by
      rw [List.length_cons, Nat.add_assoc, Nat.add_comm 1]
    simp only [List.cons_append, feedEnds, ih, hlength]
    split
    · rw [List.cons_append]
    · rfl

theorem length_feedEnds (offset : Nat) (bs : List UInt8) :
    (feedEnds offset bs).length = bs.count lineFeed := by
  induction bs generalizing offset with
  | nil => rfl
  | cons b bs ih =>
    rw [feedEnds, List.count_cons]
    by_cases hb : b = lineFeed <;> simp [hb, ih]

/-- The end of a line feed is behind the beginning of the bytes, and not behind their end. -/
theorem bounds_of_mem_feedEnds (h : n ∈ feedEnds offset bs) :
    offset < n ∧ n ≤ offset + bs.length := by
  induction bs generalizing offset with
  | nil => cases h
  | cons b bs ih =>
    rw [List.length_cons]
    have hrest (hn : n ∈ feedEnds (offset + 1) bs) : offset < n ∧ n ≤ offset + (bs.length + 1) := by
      have := ih hn
      omega
    rw [feedEnds] at h
    split at h
    · rcases List.mem_cons.1 h with rfl | h
      · omega
      · exact hrest h
    · exact hrest h

/-- Of the lines of some bytes the last one starts behind the last line feed. -/
theorem getElem?_count (bs : List UInt8) :
    (0 :: feedEnds 0 bs)[bs.count lineFeed]? = some (lastFeedEnd bs) := by
  rw [← length_feedEnds 0]
  induction bs using List.reverseRecOn with
  | nil => rfl
  | append_singleton bs b ih =>
    rw [feedEnds_append, lastFeedEnd_concat]
    by_cases hb : b = lineFeed
    · simp [feedEnds, hb]
    · simpa [feedEnds, hb] using ih

end

/-! ### The table of a source -/

/-- The number of line feeds before an offset. -/
def feedsBefore (source : String) (offset : Nat) : Nat :=
  ((bytes source).take offset).count lineFeed

/-- The offset just behind the last line feed before an offset, or zero when there is none. -/
def lineStart (source : String) (offset : Nat) : Nat := lastFeedEnd ((bytes source).take offset)

theorem length_bytes (source : String) : (bytes source).length = source.utf8ByteSize := by
  rw [bytes, Array.length_toList, ByteArray.size_data, String.size_toByteArray]

section

variable {source : String} {offset : UInt32} {m n : Nat}

/-- Before its numbers are cut to 32 bits, the table of a source lists the lines that start up to an
    offset, and then those that start behind it. -/
theorem starts_append (hn : n ≤ source.utf8ByteSize) :
    0 :: feedEnds 0 (bytes source) =
      (0 :: feedEnds 0 ((bytes source).take n)) ++ feedEnds n ((bytes source).drop n) := by
  have hlength : ((bytes source).take n).length = n :=
    List.length_take_of_le ((length_bytes source).symm ▸ hn)
  have happend := feedEnds_append 0 ((bytes source).take n) ((bytes source).drop n)
  rw [List.take_append_drop, hlength, Nat.zero_add] at happend
  rw [happend, List.cons_append]

/-- The numbers of the table are those of the source while these fit. -/
theorem toNat_getD_starts (hsize : source.utf8ByteSize < UInt32.size) (i : Nat) :
    ((ofSource source).starts.getD i 0).toNat = (0 :: feedEnds 0 (bytes source))[i]?.getD 0 := by
  rw [ofSource, Array.getD_eq_getD_getElem?, List.getElem?_toArray, List.getElem?_map]
  cases hs : (0 :: feedEnds 0 (bytes source))[i]? with
  | none => rfl
  | some s =>
    have hle : s ≤ source.utf8ByteSize := by
      rcases List.mem_cons.1 (List.mem_of_getElem? hs) with rfl | hmem
      · exact Nat.zero_le _
      · have := (bounds_of_mem_feedEnds hmem).2
        rwa [Nat.zero_add, length_bytes] at this
    exact UInt32.toNat_ofNatClamp_of_lt (Nat.lt_of_le_of_lt hle hsize)

theorem size_starts (source : String) :
    (ofSource source).starts.size = (0 :: feedEnds 0 (bytes source)).length := by
  rw [ofSource, List.size_toArray, List.length_map]

/-- The table splits at every offset of the source behind the lines that were begun. -/
theorem splitsAt_starts (hsize : source.utf8ByteSize < UInt32.size)
    (hoffset : offset.toNat ≤ source.utf8ByteSize) :
    SplitsAt (ofSource source).starts offset (feedsBefore source offset.toNat) := by
  have happend := starts_append hoffset
  have hreached : (0 :: feedEnds 0 ((bytes source).take offset.toNat)).length =
      feedsBefore source offset.toNat + 1 := by
    rw [List.length_cons, length_feedEnds, feedsBefore]
  rw [SplitsAt, size_starts, happend, List.length_append, hreached]
  refine ⟨by omega, fun i hi => ?_⟩
  rw [UInt32.le_iff_toNat_le, toNat_getD_starts hsize, happend]
  by_cases hbefore : i ≤ feedsBefore source offset.toNat
  · have hlt : i < (0 :: feedEnds 0 ((bytes source).take offset.toNat)).length := by omega
    rw [List.getElem?_append_left hlt, List.getElem?_eq_getElem hlt, Option.getD_some]
    refine iff_of_true ?_ hbefore
    rcases List.mem_cons.1 (List.getElem_mem hlt) with hzero | hmem
    · rw [hzero]
      exact Nat.zero_le _
    · have := (bounds_of_mem_feedEnds hmem).2
      rw [Nat.zero_add, List.length_take] at this
      omega
  · have hle : (0 :: feedEnds 0 ((bytes source).take offset.toNat)).length ≤ i := by omega
    rw [List.getElem?_append_right hle, hreached]
    refine iff_of_false ?_ hbefore
    have hlt : i - (feedsBefore source offset.toNat + 1) <
        (feedEnds offset.toNat ((bytes source).drop offset.toNat)).length := by omega
    rw [List.getElem?_eq_getElem hlt, Option.getD_some]
    exact Nat.not_le.2 (bounds_of_mem_feedEnds (List.getElem_mem hlt)).1

theorem lineStart_le (source : String) (n : Nat) : lineStart source n ≤ n :=
  (lastFeedEnd_le _).trans (List.length_take_le _ _)

theorem feedsBefore_le (source : String) (n : Nat) : feedsBefore source n ≤ n :=
  List.count_le_length.trans (List.length_take_le _ _)

/-- The line of an offset starts behind the last line feed before the offset. -/
theorem toNat_start (hsize : source.utf8ByteSize < UInt32.size)
    (hoffset : offset.toNat ≤ source.utf8ByteSize) :
    ((ofSource source).starts.getD (feedsBefore source offset.toNat) 0).toNat =
      lineStart source offset.toNat := by
  have hlast : (0 :: feedEnds 0 ((bytes source).take offset.toNat))[
      feedsBefore source offset.toNat]? = some (lineStart source offset.toNat) := getElem?_count _
  have hlt := (List.getElem?_eq_some_iff.1 hlast).1
  rw [toNat_getD_starts hsize, starts_append hoffset, List.getElem?_append_left hlt,
    hlast, Option.getD_some]

/-- An offset of a source has a position, which counts the line feeds before the offset and the
    bytes behind the last of them. -/
theorem exists_position (hsize : source.utf8ByteSize < UInt32.size - 1)
    (hoffset : offset.toNat ≤ source.utf8ByteSize) :
    ∃ line column : UInt32, (ofSource source).position? offset = some (line, column) ∧
      line.toNat = 1 + feedsBefore source offset.toNat ∧
      column.toNat = offset.toNat - lineStart source offset.toNat + 1 := by
  have hfits : source.utf8ByteSize < UInt32.size := by omega
  have hstart := toNat_start hfits hoffset
  have hlines := feedsBefore_le source offset.toNat
  generalize hs : (ofSource source).starts.getD (feedsBefore source offset.toNat) 0 = start
    at hstart
  have hle : start ≤ offset := by
    rw [UInt32.le_iff_toNat_le, hstart]
    exact lineStart_le source _
  have hdistance : (offset - start).toNat = offset.toNat - lineStart source offset.toNat := by
    rw [UInt32.toNat_sub_of_le _ _ hle, hstart]
  have hcolumn : (offset - start).toNat + (1 : UInt32).toNat < UInt32.size := by
    rw [hdistance, UInt32.toNat_one]
    omega
  refine ⟨.ofNatClamp (feedsBefore source offset.toNat + 1), offset - start + 1, ?_, ?_, ?_⟩
  · rw [position?, indexOf_eq (splitsAt_starts hfits hoffset)]
    simp only [hs, difference?_of_le hle, sum?_of_lt hcolumn, Option.bind_eq_bind, Option.bind_some]
    rfl
  · rw [UInt32.toNat_ofNatClamp_of_lt (by omega), Nat.add_comm]
  · rw [UInt32.toNat_add, Nat.mod_eq_of_lt hcolumn, hdistance, UInt32.toNat_one]

/-- So much is reported of an offset of a source. -/
theorem position_eq (hsize : source.utf8ByteSize < UInt32.size - 1) (hn : n ≤ source.utf8ByteSize) :
    (ofSource source).position n = (1 + feedsBefore source n, n - lineStart source n + 1) := by
  have hclamp : (UInt32.ofNatClamp n).toNat = n := UInt32.toNat_ofNatClamp_of_lt (by omega)
  obtain ⟨line, column, heq, hline, hcolumn⟩ := exists_position hsize (hclamp.symm ▸ hn)
  rw [hclamp] at hline hcolumn
  rw [position, heq, ← hline, ← hcolumn]

/-- Between two offsets there are line feeds, or they are on a line that starts at the same
    place. -/
theorem feedsBefore_lt_or (source : String) (h : m ≤ n) :
    feedsBefore source m < feedsBefore source n ∨
      feedsBefore source m = feedsBefore source n ∧ lineStart source m = lineStart source n := by
  have hsplit : (bytes source).take n =
      (bytes source).take m ++ ((bytes source).drop m).take (n - m) := by
    rw [← List.take_add, Nat.add_sub_cancel' h]
  simp only [feedsBefore, lineStart, hsplit, List.count_append]
  by_cases hmem : lineFeed ∈ ((bytes source).drop m).take (n - m)
  · exact .inl (Nat.lt_add_of_pos_right (List.count_pos_iff.2 hmem))
  · rw [lastFeedEnd_append hmem, List.count_eq_zero_of_not_mem hmem, Nat.add_zero]
    exact .inr ⟨rfl, rfl⟩

/-- A later offset has a later position: it is on a later line, or further along the same line. -/
theorem position?_lt {a b : UInt32} {p q : UInt32 × UInt32}
    (hsize : source.utf8ByteSize < UInt32.size - 1) (hb : b.toNat ≤ source.utf8ByteSize)
    (hp : (ofSource source).position? a = some p) (hq : (ofSource source).position? b = some q)
    (hab : a < b) : toLex p < toLex q := by
  rw [UInt32.lt_iff_toNat_lt] at hab
  obtain ⟨line, column, heq, hline, hcolumn⟩ :=
    exists_position hsize (Nat.le_trans (Nat.le_of_lt hab) hb)
  obtain ⟨line', column', heq', hline', hcolumn'⟩ := exists_position hsize hb
  obtain rfl := Option.some.inj (hp.symm.trans heq)
  obtain rfl := Option.some.inj (hq.symm.trans heq')
  rw [Prod.Lex.toLex_lt_toLex, UInt32.lt_iff_toNat_lt, UInt32.lt_iff_toNat_lt, ← UInt32.toNat_inj]
  dsimp only
  rcases feedsBefore_lt_or source (Nat.le_of_lt hab) with hlt | ⟨hfeeds, hstart⟩
  · exact .inl (by omega)
  · have := lineStart_le source a.toNat
    exact .inr (by omega)

theorem not_toLex_lt_self (p : UInt32 × UInt32) : ¬ toLex p < toLex p := by
  rw [Prod.Lex.toLex_lt_toLex]
  rintro (hlt | ⟨-, hlt⟩)
  · exact UInt32.lt_irrefl _ hlt
  · exact UInt32.lt_irrefl _ hlt

end

/-- In a source that is shorter than the greatest number of 32 bits, the position of an offset counts
    the line feeds before it and the bytes behind the last of them, and no number on the way leaves
    the 32 bits.  So a later offset has a later position. -/
theorem position_exact (source : String) (hsize : source.utf8ByteSize < UInt32.size - 1) :
    (∀ offset : UInt32, offset.toNat ≤ source.utf8ByteSize →
      ∃ line column : UInt32, (ofSource source).position? offset = some (line, column) ∧
        line.toNat = 1 + feedsBefore source offset.toNat ∧
        column.toNat = offset.toNat - lineStart source offset.toNat + 1) ∧
    ∀ (a b : UInt32) (p q : UInt32 × UInt32), a.toNat ≤ source.utf8ByteSize →
      b.toNat ≤ source.utf8ByteSize → (ofSource source).position? a = some p →
      (ofSource source).position? b = some q → (a ≠ b → p ≠ q) ∧ (a < b → toLex p < toLex q) := by
  refine ⟨fun offset hoffset => exists_position hsize hoffset, fun a b p q ha hb hp hq => ?_⟩
  refine ⟨fun hne hpq => ?_, position?_lt hsize hb hp hq⟩
  subst hpq
  rcases UInt32.lt_or_lt_of_ne hne with hlt | hlt
  · exact not_toLex_lt_self p (position?_lt hsize hb hp hq hlt)
  · exact not_toLex_lt_self p (position?_lt hsize ha hq hp hlt)

/-- Two positions around an empty line, behind a character of two bytes. -/
theorem position_exact_emptyLine :
    let source := "a\r\né\n\nb"
    source.utf8ByteSize < UInt32.size - 1 ∧ (ofSource source).position? 5 = some (2, 3) ∧
      (ofSource source).position? 7 = some (4, 1) ∧
      toLex ((2, 3) : UInt32 × UInt32) < toLex (4, 1) := by
  intro source
  have hsize : source.utf8ByteSize < UInt32.size - 1 := by decide +kernel
  obtain ⟨hposition, hordered⟩ := position_exact source hsize
  have hbefore : feedsBefore source 5 = 1 ∧ lineStart source 5 = 3 := by decide +kernel
  have hbehind : feedsBefore source 7 = 3 ∧ lineStart source 7 = 7 := by decide +kernel
  have hfive : (5 : UInt32).toNat ≤ source.utf8ByteSize := by decide +kernel
  have hseven : (7 : UInt32).toNat ≤ source.utf8ByteSize := by decide +kernel
  obtain ⟨line, column, heq, hline, hcolumn⟩ := hposition 5 hfive
  obtain ⟨line', column', heq', hline', hcolumn'⟩ := hposition 7 hseven
  obtain rfl : line = 2 := UInt32.toNat_inj.1 (hline.trans (congrArg (1 + ·) hbefore.1))
  obtain rfl : column = 3 := UInt32.toNat_inj.1 (hcolumn.trans (congrArg (5 - · + 1) hbefore.2))
  obtain rfl : line' = 4 := UInt32.toNat_inj.1 (hline'.trans (congrArg (1 + ·) hbehind.1))
  obtain rfl : column' = 1 := UInt32.toNat_inj.1 (hcolumn'.trans (congrArg (7 - · + 1) hbehind.2))
  exact ⟨hsize, heq, heq', (hordered 5 7 _ _ hfive hseven heq heq').2 (by decide)⟩

end SnippetLang.Lines

/-
  ComponentFlow.Proofs.Printed — specs survive being printed and read. What reading drops is not in a printed
  spec: blanks at the ends of parts, empty parts, other spellings of a number. What it cuts at is there only where
  printing put it, the first '[', the last ']' and the commas, as long as no name holds a comma. So a spec is read
  back from its text if its names hold no comma and end in no blank, and only then; and every spec that was
  read is of that kind (`TensorSpec.printed_read`).

  - `Text.Tight`: no blanks at the ends.
  - `Dim.Printable`: an extent that fits 64 bits, or a name that is read back.
-/
import ComponentFlow.Proofs.Scope
import ComponentFlow.Tensor.SpecText

namespace ComponentFlow

/-! ## Trimming and cutting -/

namespace Text

variable {cs before after : List Char} {c sep : Char}

/-- Neither end is a blank. -/
structure Tight (cs : List Char) : Prop where
  head : ∀ c ∈ cs.head?, isBlank c = false
  last : ∀ c ∈ cs.getLast?, isBlank c = false

theorem head_dropWhile (cs : List Char) : ∀ c ∈ (cs.dropWhile isBlank).head?, isBlank c = false := by
  intro c hc
  have hfirst := List.head?_dropWhile_not isBlank cs
  rw [Option.mem_def.mp hc] at hfirst
  exact hfirst

theorem dropWhile_head (h : ∀ c ∈ cs.head?, isBlank c = false) : cs.dropWhile isBlank = cs := by
  cases cs with
  | nil => rfl
  | cons c rest => exact List.dropWhile_cons_of_neg (by simp [h c rfl])

theorem trim_of_tight (h : Tight cs) : trim cs = cs := by
  have hreverse : cs.reverse.dropWhile isBlank = cs.reverse := dropWhile_head (by simpa using h.last)
  rw [trim, dropWhile_head h.head, trimEnd, hreverse, List.reverse_reverse]

theorem last_trim (cs : List Char) : ∀ c ∈ (trim cs).getLast?, isBlank c = false := by
  rw [trim, trimEnd, List.getLast?_reverse]
  exact head_dropWhile _

theorem mem_of_mem_trim (h : c ∈ trim cs) : c ∈ cs := by
  have hback : c ∈ (cs.dropWhile isBlank).reverse := (List.dropWhile_sublist isBlank).mem (List.mem_reverse.mp h)
  exact (List.dropWhile_sublist isBlank).mem (List.mem_reverse.mp hback)

/-- The pieces of a text do not hold what it was cut at. -/
theorem not_mem_piece {piece : List Char} (h : piece ∈ splitAt sep cs) : sep ∉ piece := by
  induction cs generalizing piece with
  | nil => rw [List.mem_singleton.mp h]; exact List.not_mem_nil
  | cons c rest ih =>
    rw [splitAt] at h
    split at h
    · rcases List.mem_cons.mp h with rfl | h
      · exact List.not_mem_nil
      · exact ih h
    · next hc =>
      split at h
      · rw [List.mem_singleton.mp h]
        simpa using Ne.symm hc
      · next first pieces hrest =>
        rcases List.mem_cons.mp h with rfl | h
        · simpa [Ne.symm hc] using ih (hrest ▸ List.mem_cons_self)
        · exact ih (hrest ▸ List.mem_cons_of_mem _ h)

theorem splitOnce_append (h : sep ∉ before) : splitOnce sep (before ++ sep :: after) = some (before, after) := by
  induction before with
  | nil => exact if_pos rfl
  | cons c before ih =>
    obtain ⟨hc, hbefore⟩ := not_or.mp (mt List.mem_cons.mpr h)
    rw [List.cons_append, splitOnce, if_neg (Ne.symm hc), ih hbefore]
    rfl

theorem dropLast?_append : dropLast? sep (cs ++ [sep]) = some cs := by
  simp [dropLast?]

end Text

/-! ## Extents -/

namespace TensorSpec

theorem toList_natText (n : Nat) : (toString n).toList = Nat.toDigits 10 n := by
  simp

theorem isDigit_of_mem_digits {n : Nat} {c : Char} (hc : c ∈ Nat.toDigits 10 n) : c.isDigit = true :=
  Nat.isDigit_of_mem_toDigits (by decide) (by decide) hc

/-- An extent that fits 64 bits is read back from its digits. -/
theorem parseExtent_digits {n : Nat} (hn : n ≤ maxExtent) : parseExtent? (Nat.toDigits 10 n) = some n := by
  have hvalue : (Nat.toDigits 10 n).foldl (fun acc d => acc * 10 + (d.toNat - '0'.toNat)) 0 = n := by
    have hread : Nat.ofDigitChars 10 (Nat.toDigits 10 n) 0 = n := Nat.ofDigitChars_toDigits (by decide) (by decide)
    simpa only [Nat.ofDigitChars, Nat.mul_comm] using hread
  have hdigits : (Nat.toDigits 10 n).all Char.isDigit = true :=
    List.all_eq_true.mpr fun _ hc => isDigit_of_mem_digits hc
  have hsome : (Nat.toDigits 10 n).isEmpty = false := by simp [Nat.toDigits_ne_nil]
  unfold parseExtent?
  split
  · next rest hplus =>
    have hdigit := isDigit_of_mem_digits (n := n) (hplus ▸ List.mem_cons_self)
    cases hdigit
  · simp only [hvalue, hdigits, hsome, Bool.not_true, Bool.or_false, Bool.false_eq_true, if_false, if_pos hn]

theorem parseExtent_le {cs : List Char} {n : Nat} (h : parseExtent? cs = some n) : n ≤ maxExtent := by
  simp only [parseExtent?, Option.ite_none_left_eq_some, Option.ite_none_right_eq_some, Option.some.injEq] at h
  obtain ⟨-, hle, rfl⟩ := h
  exact hle

end TensorSpec

/-! ## Axes -/

namespace Dim

open Text (Tight)

variable {d : Dim}

/-- The text is read back: the extent fits 64 bits, or the name holds no comma and ends in no blank. -/
def Printable : Dim → Prop
  | .fixed n => n ≤ TensorSpec.maxExtent
  | .named symbol => ',' ∉ symbol.toList ∧ ∀ c ∈ symbol.toList.getLast?, Text.isBlank c = false

instance : DecidablePred Printable
  | .fixed n => Nat.decLe n TensorSpec.maxExtent
  | .named _ => @instDecidableAnd _ _ inferInstance (Option.decidableForallMem _)

theorem toList_text_fixed (n : Nat) : (fixed n).text.toList = Nat.toDigits 10 n := TensorSpec.toList_natText n

theorem toList_text_named (symbol : String) : (named symbol).text.toList = '?' :: symbol.toList :=
  String.toList_append

theorem text_ne_nil (d : Dim) : d.text.toList ≠ [] := by
  cases d with
  | fixed n =>
    rw [toList_text_fixed]
    exact Nat.toDigits_ne_nil
  | named symbol =>
    rw [toList_text_named]
    exact List.cons_ne_nil _ _

theorem isBlank_of_isDigit {c : Char} (h : c.isDigit = true) : Text.isBlank c = false := by
  obtain ⟨hlow, hhigh⟩ : 48 ≤ c.toNat ∧ c.toNat ≤ 57 := by
    simpa [Char.isDigit, UInt32.le_iff_toNat_le] using h
  simp only [Text.isBlank, Bool.or_eq_false_iff, Bool.and_eq_false_iff, decide_eq_false_iff_not, beq_eq_false_iff_ne]
  omega

theorem tight_text (h : d.Printable) : Tight d.text.toList := by
  cases d with
  | fixed n =>
    rw [toList_text_fixed]
    exact ⟨fun c hc => isBlank_of_isDigit (TensorSpec.isDigit_of_mem_digits (List.mem_of_mem_head? hc)),
      fun c hc => isBlank_of_isDigit (TensorSpec.isDigit_of_mem_digits (List.mem_of_mem_getLast? hc))⟩
  | named symbol =>
    rw [toList_text_named]
    have hmark : Text.isBlank '?' = false := by decide
    refine ⟨fun c hc => ?_, fun c hc => ?_⟩
    · cases hc
      exact hmark
    · rw [List.getLast?_cons] at hc
      rcases hlast : symbol.toList.getLast? with _ | last
      · rw [hlast] at hc
        cases hc
        exact hmark
      · rw [hlast] at hc
        cases hc
        exact h.2 _ hlast

theorem comma_not_mem_text (h : d.Printable) : ',' ∉ d.text.toList := by
  cases d with
  | fixed n =>
    rw [toList_text_fixed]
    intro hcomma
    cases TensorSpec.isDigit_of_mem_digits hcomma
  | named symbol =>
    rw [toList_text_named, List.mem_cons, not_or]
    exact ⟨by decide, h.1⟩

end Dim

namespace TensorSpec

open Text (trim)

variable {d : Dim} {dims : List Dim}

theorem parseDim_text (h : d.Printable) : parseDim d.text.toList = .ok d := by
  cases d with
  | fixed n =>
    rw [Dim.toList_text_fixed]
    unfold parseDim
    split
    · next symbol hmark =>
      cases isDigit_of_mem_digits (n := n) (hmark ▸ List.mem_cons_self)
    · rw [parseExtent_digits h]
  | named symbol =>
    rw [Dim.toList_text_named, parseDim, String.ofList_toList]

theorem parseDims_text (h : ∀ d ∈ dims, d.Printable) : parseDims (dims.map fun d => d.text.toList) = .ok dims := by
  induction dims with
  | nil => rfl
  | cons d dims ih =>
    obtain ⟨hd, hrest⟩ := List.forall_mem_cons.mp h
    have hsome : d.text.toList.isEmpty = false := by simpa using d.text_ne_nil
    simp only [List.map_cons, parseDims, Text.trim_of_tight (Dim.tight_text hd), hsome, Bool.false_eq_true, if_false,
      parseDim_text hd, ih hrest]
    rfl

/-- What is read from a part is read back from its text. -/
theorem printable_of_parseDim {part : List Char} (hcomma : ',' ∉ part)
    (hlast : ∀ c ∈ part.getLast?, Text.isBlank c = false) (h : parseDim part = .ok d) : d.Printable := by
  unfold parseDim at h
  split at h
  · next symbol =>
    cases h
    rw [Dim.Printable, String.toList_ofList]
    rw [List.mem_cons, not_or] at hcomma
    refine ⟨hcomma.2, fun c hc => hlast c ?_⟩
    rw [List.getLast?_cons, Option.mem_def.mp hc]
    rfl
  · split at h
    · next hextent =>
      cases h
      exact parseExtent_le hextent
    · cases h

theorem printable_of_parseDims {parts : List (List Char)} (hcomma : ∀ part ∈ parts, ',' ∉ part)
    (h : parseDims parts = .ok dims) : ∀ d ∈ dims, d.Printable := by
  induction parts generalizing dims with
  | nil =>
    cases h
    exact fun d hd => nomatch hd
  | cons part parts ih =>
    obtain ⟨hpart, hparts⟩ := List.forall_mem_cons.mp hcomma
    rw [parseDims] at h
    split at h
    · exact ih hparts h
    · rcases hd : parseDim (trim part) with _ | d
      · rw [hd] at h
        cases h
      rcases hrest : parseDims parts with _ | rest
      · rw [hd, hrest] at h
        cases h
      rw [hd, hrest] at h
      cases h
      have hcomma : ',' ∉ trim part := fun hmem => hpart (Text.mem_of_mem_trim hmem)
      exact List.forall_mem_cons.mpr ⟨printable_of_parseDim hcomma (Text.last_trim part) hd, ih hparts hrest⟩

/-! ## Specs -/

variable {s : TensorSpec}

/-- The texts of all axes are read back. -/
def Printable (s : TensorSpec) : Prop := ∀ d ∈ s.dims, d.Printable

instance : DecidablePred Printable := fun s => inferInstanceAs (Decidable (∀ d ∈ s.dims, d.Printable))

theorem toList_text (s : TensorSpec) : s.text.toList =
    s.dtype.name.toList ++ '[' :: ([','].intercalate (s.dims.map fun d => d.text.toList) ++ [']']) := by
  simp [text, Dim.listText, String.toList_append, String.toList_intercalate, Function.comp_def]

/-- Nothing is cut off and no part is dropped. -/
theorem parseDims_body (h : s.Printable) :
    parseDims (Text.splitAt ',' ([','].intercalate (s.dims.map fun d => d.text.toList))) = .ok s.dims := by
  rcases hdims : s.dims with _ | ⟨d, rest⟩
  · rfl
  · rw [← hdims, Text.splitAt_eq_splitOn, List.splitOn_intercalate ',' ?_ (by simp [hdims])]
    · exact parseDims_text h
    · intro part hpart
      obtain ⟨d, hd, rfl⟩ := List.mem_map.mp hpart
      exact Dim.comma_not_mem_text (h d hd)

theorem parse_text (h : s.Printable) : parse s.text = .ok s := by
  have htight : Text.Tight s.text.toList := by
    rw [toList_text]
    refine ⟨fun c hc => ?_, fun c hc => ?_⟩
    · revert hc
      cases s.dtype <;> (rintro ⟨⟩; decide)
    · rw [← List.cons_append, ← List.append_assoc, List.getLast?_concat] at hc
      cases hc
      decide
  have hopen : '[' ∉ s.dtype.name.toList := by cases s.dtype <;> decide
  have hname : String.ofList (trim s.dtype.name.toList) = s.dtype.name := by cases s.dtype <;> rfl
  have hdtype : DType.ofName? s.dtype.name = some s.dtype := by cases s.dtype <;> rfl
  rw [parse, Text.trim_of_tight htight, toList_text, Text.splitOnce_append hopen]
  simp only [Text.dropLast?_append, hname, hdtype, parseDims_body h]
  rfl

theorem printable_of_parse {raw : String} (h : parse raw = .ok s) : s.Printable := by
  unfold parse at h
  rcases hopen : Text.splitOnce '[' (trim raw.toList) with _ | ⟨name, rest⟩
  · simp only [hopen] at h
    cases h
  rcases hclose : Text.dropLast? ']' rest with _ | body
  · simp only [hopen, hclose] at h
    cases h
  rcases hdtype : DType.ofName? (String.ofList (trim name)) with _ | dtype
  · simp only [hopen, hclose, hdtype] at h
    cases h
  rcases hdims : parseDims (Text.splitAt ',' body) with _ | dims
  · simp only [hopen, hclose, hdtype, hdims] at h
    cases h
  simp only [hopen, hclose, hdtype, hdims] at h
  cases h
  exact printable_of_parseDims (fun part hpart => Text.not_mem_piece hpart) hdims

/-- A spec is read back from its text exactly if its extents fit 64 bits and its names hold no comma and end in no
    blank. Every spec that was read from some text is of that kind, so what is read once more from the printed form is
    the same. -/
theorem printed_read : (∀ s, parse (text s) = .ok s ↔ s.Printable) ∧
    ∀ raw s, parse raw = .ok s → s.Printable ∧ parse s.text = .ok s :=
  ⟨fun _ => ⟨printable_of_parse, parse_text⟩,
    fun _ _ h => ⟨printable_of_parse h, parse_text (printable_of_parse h)⟩⟩

/-- The largest extent, a name with brackets and a blank before it, and an empty name. -/
def uncommon : TensorSpec := ⟨.bool, [.named " [?]", .fixed 18446744073709551615, .named ""]⟩

theorem uncommon_read : uncommon.Printable ∧ parse uncommon.text = .ok uncommon ∧
    parse " f32 [ ?B ,, +4]" = .ok ⟨.f32, [.named "B", .fixed 4]⟩ ∧
    parse (text ⟨.f32, [.named "B", .fixed 4]⟩) = .ok ⟨.f32, [.named "B", .fixed 4]⟩ := by
  have hprintable : uncommon.Printable := by decide +kernel
  have hparse : parse " f32 [ ?B ,, +4]" = .ok ⟨.f32, [.named "B", .fixed 4]⟩ := by rfl
  obtain ⟨hread, hagain⟩ := printed_read
  exact ⟨hprintable, (hread uncommon).mpr hprintable, hparse, (hagain _ _ hparse).2⟩

end TensorSpec

end ComponentFlow

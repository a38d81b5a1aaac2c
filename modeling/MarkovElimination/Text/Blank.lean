/-! # Blanks, words and lines

Texts are cut at **blanks**, the 25 characters with the Unicode property White_Space. A text is
trimmed of blanks at both ends, split into its words (maximal runs without blanks), and split into
lines. All functions work on lists of characters. -/

namespace MarkovElimination.Text

/-- Closed ranges of code points, ascending and apart. -/
abbrev Ranges := List (Nat × Nat)

/-- Whether a code point lies in one of the ranges. -/
def Ranges.contains (ranges : Ranges) (code : Nat) : Bool :=
  ranges.any fun range => range.1 ≤ code && code ≤ range.2

/-- The ranges of the property White_Space. -/
def blankRanges : Ranges :=
  [(0x09, 0x0D), (0x20, 0x20), (0x85, 0x85), (0xA0, 0xA0), (0x1680, 0x1680), (0x2000, 0x200A),
   (0x2028, 0x2029), (0x202F, 0x202F), (0x205F, 0x205F), (0x3000, 0x3000)]

/-- A character that separates words. -/
def isBlank (c : Char) : Bool :=
  blankRanges.contains c.toNat

/-- The text without the blanks at its two ends. -/
def trim (text : List Char) : List Char :=
  ((text.dropWhile isBlank).reverse.dropWhile isBlank).reverse

/-- The maximal runs of characters other than blanks, in order. -/
def words (text : List Char) : List (List Char) :=
  match _h : text.dropWhile isBlank with
  | [] => []
  | c :: rest =>
    (c :: rest.takeWhile fun d => !isBlank d) :: words (rest.dropWhile fun d => !isBlank d)
termination_by text.length
decreasing_by
  have h₁ := (List.dropWhile_suffix isBlank (l := text)).length_le
  have h₂ := (List.dropWhile_suffix (fun d => !isBlank d) (l := rest)).length_le
  simp only [_h, List.length_cons] at h₁
  omega

/-- The lines of a text without their ends. A line ends in a line feed, with or without a carriage
return before it; what follows the last line feed is a line unless it is empty. -/
def lines : List Char → List (List Char)
  | [] => []
  | '\n' :: rest => [] :: lines rest
  | '\r' :: '\n' :: rest => [] :: lines rest
  | c :: rest =>
    match rest, lines rest with
    | [], _ => [[c]]
    | _ :: _, [] => [[c]]
    | _ :: _, line :: others => (c :: line) :: others

/-- The part before the first separator and the part after it, if there is one. -/
def splitOnce (isSeparator : Char → Bool) : List Char → Option (List Char × List Char)
  | [] => none
  | c :: rest =>
    if isSeparator c then some ([], rest)
    else (splitOnce isSeparator rest).map fun (before, after) => (c :: before, after)

/-- A text is cut at a separator only, and nothing but that separator is lost. -/
theorem splitOnce_eq_some {isSeparator : Char → Bool} {text before after : List Char}
    (h : splitOnce isSeparator text = some (before, after)) :
    ∃ c, isSeparator c = true ∧ text = before ++ c :: after := by
  induction text generalizing before after with
  | nil => simp [splitOnce] at h
  | cons c rest ih =>
    unfold splitOnce at h
    split at h
    · rename_i hc
      obtain ⟨rfl, rfl⟩ : [] = before ∧ rest = after := by simpa using h
      exact ⟨c, hc, rfl⟩
    · obtain ⟨⟨b, a⟩, hs, heq⟩ := Option.map_eq_some_iff.1 h
      obtain ⟨rfl, rfl⟩ : c :: b = before ∧ a = after := by simpa using heq
      obtain ⟨d, hd, hrest⟩ := ih hs
      exact ⟨d, hd, by simp [hrest]⟩

/-- The part after the separator is shorter than the text. -/
theorem length_lt_of_splitOnce {isSeparator : Char → Bool} {text before after : List Char}
    (h : splitOnce isSeparator text = some (before, after)) :
    before.length < text.length ∧ after.length < text.length := by
  obtain ⟨c, -, rfl⟩ := splitOnce_eq_some h
  simp
  omega

/-- Trimming never lengthens a text. -/
theorem length_trim_le (text : List Char) : (trim text).length ≤ text.length := by
  have h₁ := (List.dropWhile_suffix isBlank (l := text)).length_le
  have h₂ := (List.dropWhile_suffix isBlank (l := (text.dropWhile isBlank).reverse)).length_le
  simp only [trim, List.length_reverse] at *
  omega

end MarkovElimination.Text

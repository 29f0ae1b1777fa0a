import Pep9.Assembly.Object

/-
  The text of object code. A byte is a pair of digits, sixteen
  pairs make a line, and a mark stands behind the last pair;
  so the bytes can be read back from the words of the text.

  Key theorems: `words_format`, `format_rows`,
  `format_decodable`.
-/

namespace Pep9

open List

namespace Assembly

/- The digits of base sixteen. -/
def digits : List Char := "0123456789ABCDEF".toList

/- A byte as two digits. -/
def pair (byte : UInt8) : String :=
  String.ofList [digits.getD (byte.toNat / 16) '0', digits.getD (byte.toNat % 16) '0']

/- The byte that two digits stand for. -/
def byteOf? (word : String) : Option UInt8 :=
  match word.toList with
  | [high, low] => do
    let h ← digits.idxOf? high
    let l ← digits.idxOf? low
    some (UInt8.ofNat (16 * h + l))
  | _ => none

theorem digit_of_lt :
    ∀ n < 16, Text.upperHexDigit n = digits.getD n '0' ∧
      digits.idxOf? (digits.getD n '0') = some n ∧ digits.getD n '0' ∈ digits := by
  decide

theorem halves_lt (byte : UInt8) :
    byte.toNat / 16 < 16 ∧ byte.toNat % 16 < 16 := by
  have hByte := byte.toNat_lt
  omega

theorem upperHex_pair (byte : UInt8) :
    Text.upperHex 2 byte.toNat = pair byte := by
  rcases halves_lt byte with ⟨hHigh, hLow⟩
  unfold Text.upperHex pair
  rw [Text.hexDigits, Text.hexDigits, Text.hexDigits, Nat.mod_eq_of_lt hHigh,
    (digit_of_lt _ hHigh).1, (digit_of_lt _ hLow).1]
  rfl

theorem byteOf?_pair (byte : UInt8) : byteOf? (pair byte) = some byte := by
  rcases halves_lt byte with ⟨hHigh, hLow⟩
  unfold byteOf? pair
  rw [String.toList_ofList]
  simp only [(digit_of_lt _ hHigh).2.1, (digit_of_lt _ hLow).2.1, Option.bind_eq_bind,
    Option.bind_some, Nat.div_add_mod, UInt8.ofNat_toNat]

theorem mem_digits_of_pair {byte : UInt8} {c : Char}
    (h : c ∈ (pair byte).toList) :
    c ∈ digits := by
  rcases halves_lt byte with ⟨hHigh, hLow⟩
  unfold pair at h
  rw [String.toList_ofList, mem_cons, mem_singleton] at h
  rcases h with rfl | rfl
  · exact (digit_of_lt _ hHigh).2.2
  · exact (digit_of_lt _ hLow).2.2

def isSeparator (c : Char) : Bool := c == ' ' || c == '\n'

/- What stands between the spaces and line feeds of a text. -/
def words (text : String) : List String :=
  (text.toList.splitOnP isSeparator).map String.ofList

/- The bytes before the mark. -/
def decode (text : String) : Option (List UInt8) :=
  ((words text).takeWhile (· ≠ "zz")).mapM byteOf?

/- The text from the byte with some position on. -/
def formatFrom (position : Nat) : List UInt8 → String
  | [] => "zz\n"
  | byte :: rest =>
    pair byte ++ ((if (position + 1) % 16 = 0 then "\n" else " ")
      ++ formatFrom (position + 1) rest)

/- What stands before a byte stands behind the one before it. -/
theorem join_separator
    (position : Nat)
    (bytes : List UInt8) :
    String.join ((bytes.zipIdx position).map fun (byte, i) =>
        separator i ++ Text.upperHex 2 byte.toNat)
        ++ (separator (position + bytes.length) ++ "zz\n") =
      separator position ++ formatFrom position bytes := by
  induction bytes generalizing position with
  | nil => exact String.empty_append
  | cons byte rest ih =>
    have hNext : separator (position + 1) = if (position + 1) % 16 = 0 then "\n" else " " :=
      if_pos (Nat.succ_pos _)
    rw [zipIdx_cons, map_cons, String.join_cons, length_cons, Nat.add_comm rest.length,
      ← Nat.add_assoc, String.append_assoc, ih, hNext, formatFrom, ← upperHex_pair]
    exact String.append_assoc

theorem format_eq (bytes : List UInt8) : format bytes = formatFrom 0 bytes := by
  have hJoin := join_separator 0 bytes
  rw [Nat.zero_add, ← String.append_assoc] at hJoin
  exact hJoin.trans String.empty_append

theorem words_pair
    (byte : UInt8)
    {c : Char}
    (rest : String)
    (h : isSeparator c = true) :
    words (pair byte ++ (String.singleton c ++ rest)) = pair byte :: words rest := by
  have hPair : ∀ d ∈ (pair byte).toList, isSeparator d = false := by
    have hDigits : digits.all (fun d => !isSeparator d) = true := by decide
    intro d hD
    simpa using all_eq_true.mp hDigits d (mem_digits_of_pair hD)
  unfold words
  rw [String.toList_append, String.toList_append, String.toList_singleton, singleton_append,
    splitOnP_append_cons_of_forall_mem hPair _ h, map_cons, String.ofList_toList]

theorem words_formatFrom
    (position : Nat)
    (bytes : List UInt8) :
    words (formatFrom position bytes) = bytes.map pair ++ ["zz", ""] := by
  induction bytes generalizing position with
  | nil =>
    rw [formatFrom]
    decide
  | cons byte rest ih =>
    rw [formatFrom, map_cons, cons_append, ← ih (position + 1)]
    split
    · exact words_pair byte _ (c := '\n') rfl
    · exact words_pair byte _ (c := ' ') rfl

theorem decode_formatFrom
    (position : Nat)
    (bytes : List UInt8) :
    decode (formatFrom position bytes) = some bytes := by
  have hPairs : ∀ word ∈ bytes.map pair, decide (word ≠ "zz") = true := by
    intro word hWord
    rcases mem_map.mp hWord with ⟨byte, _, rfl⟩
    refine decide_eq_true fun hMark => ?_
    have hDigit : 'z' ∈ digits := @mem_digits_of_pair byte _ (by rw [hMark]; decide)
    exact absurd hDigit (by decide)
  unfold decode
  rw [words_formatFrom, takeWhile_append_of_pos hPairs, takeWhile_cons_of_neg (by decide),
    append_nil, mapM_map]
  have hReads : byteOf? ∘ pair = fun byte => pure byte := funext byteOf?_pair
  rw [hReads, mapM_pure, map_id']
  rfl

/- Bytes as full rows and a last one that is not full. -/
structure Rows (bytes : List UInt8) (rows : List (List UInt8)) (last : List UInt8) : Prop where
  bytes_eq : rows.flatten ++ last = bytes
  full : ∀ row ∈ rows, row.length = 16
  rest : last.length < 16

/- The lines for some rows. -/
def linesOf (rows : List (List UInt8)) (last : List UInt8) : List String :=
  rows.map (fun row => " ".intercalate (row.map pair))
    ++ [" ".intercalate (last.map pair ++ ["zz"])]

theorem intercalate_concat
    (before : List String)
    (word : String) :
    " ".intercalate (before ++ [word]) = String.join (before.map (· ++ " ")) ++ word := by
  induction before with
  | nil => rw [nil_append, String.intercalate_singleton, map_nil, String.join_nil,
      String.empty_append]
  | cons _ _ ih =>
    rw [cons_append, String.intercalate_cons_of_ne_nil (by simp), ih, map_cons,
      String.join_cons]
    simp only [String.append_assoc]

/-
  The rest of a text behind the pairs of a row that is not
  full: with the row, it is made of the lines for some rows.
-/
theorem formatFrom_rows
    (bytes row : List UInt8)
    (position : Nat)
    (hRow : row.length = position % 16) :
    ∃ rows last, Rows (row ++ bytes) rows last ∧
      String.join ((row.map pair).map (· ++ " ")) ++ formatFrom position bytes =
        String.join ((linesOf rows last).map (· ++ "\n")) := by
  induction bytes generalizing row position with
  | nil =>
    refine ⟨[], row, ⟨(append_nil row).symm, nofun, ?_⟩, ?_⟩
    · rw [hRow]
      exact Nat.mod_lt _ (by decide)
    · simp [linesOf, formatFrom, intercalate_concat, String.append_assoc]
  | cons byte rest ih =>
    rw [formatFrom, ← String.append_assoc, ← intercalate_concat, ← map_singleton,
      ← map_append]
    split
    · -- The row is full.
      next hFull =>
      rcases ih [] (position + 1) hFull.symm with ⟨rows, last, hRows, hText⟩
      refine ⟨(row ++ [byte]) :: rows, last, ⟨?_, ?_, hRows.rest⟩, ?_⟩
      · rw [flatten_cons, append_assoc, hRows.bytes_eq]
        simp
      · refine forall_mem_cons.mpr ⟨?_, hRows.full⟩
        rw [length_append, hRow, length_singleton]
        omega
      · rw [map_nil, map_nil, String.join_nil, String.empty_append] at hText
        rw [hText, linesOf, linesOf]
        simp [String.append_assoc]
    · next hRoom =>
      have hLength : (row ++ [byte]).length = (position + 1) % 16 := by
        rw [length_append, hRow, length_singleton]
        omega
      rcases ih (row ++ [byte]) (position + 1) hLength with ⟨rows, last, hRows, hText⟩
      rw [append_assoc, singleton_append] at hRows
      refine ⟨rows, last, hRows, ?_⟩
      rw [← hText]
      simp [intercalate_concat, String.append_assoc]

/-
  The words of the text are the pairs of digits of all bytes
  in their order, the mark, and nothing behind the last line
  feed. All lines but the last have sixteen pairs, and the
  last has less before the mark. The bytes can be read back.
-/
theorem format_decodable (bytes : List UInt8) :
    words (format bytes) = bytes.map pair ++ ["zz", ""] ∧
      (∃ rows last, Rows bytes rows last ∧
        format bytes = String.join ((linesOf rows last).map (· ++ "\n"))) ∧
      decode (format bytes) = some bytes ∧
      ∀ other, format other = format bytes → other = bytes := by
  have hDecode : ∀ bytes, decode (format bytes) = some bytes :=
    fun bytes => format_eq bytes ▸ decode_formatFrom 0 bytes
  refine ⟨format_eq bytes ▸ words_formatFrom 0 bytes, ?_, hDecode bytes, ?_⟩
  · rcases formatFrom_rows bytes [] 0 rfl with ⟨rows, last, hRows, hText⟩
    refine ⟨rows, last, hRows, ?_⟩
    rw [format_eq, ← hText]
    exact String.empty_append.symm
  · intro other hSame
    have hOther := hDecode other
    rw [hSame, hDecode bytes] at hOther
    exact (Option.some.inj hOther).symm

end Assembly

end Pep9

import Tellegen.Lib.Wire

/-!
A printer and a parser for JSON values over the rationals, as self-delimiting
texts. Natural numbers are digit strings in a large base, one character a
digit, closed by the null character; every value starts with a tag character.
The parser undoes the printer, so different values have different texts.

The digits and tags are ASCII. `chars` reads an ASCII text off its bytes and
`text` writes the bytes at once, which is what makes evaluation of the printer
and the parser quick.
-/

namespace PrefixCode

/-- The characters of a text, read off its bytes where these are all ASCII. -/
def chars (s : String) : List Char :=
  let bytes := s.toByteArray.data.toList
  if bytes.all (·.toNat < 128) then bytes.map fun b => Char.ofNat b.toNat else s.toList

theorem encode_eq (chars : List Char) :
    (⟨⟨chars.flatMap String.utf8EncodeChar⟩⟩ : ByteArray) = chars.utf8Encode := by
  apply ByteArray.ext
  apply Array.ext'
  simp [List.utf8Encode]

def text (chars : List Char) : String :=
  ⟨⟨⟨chars.flatMap String.utf8EncodeChar⟩⟩, chars, encode_eq chars⟩

/-- Small enough for the successor of every digit to be an ASCII character. -/
def base : ℕ := 100

def digits : ℕ → ℕ → List Char
  | 0, _ => [Char.ofNat 0]
  | fuel + 1, n =>
    if n = 0 then [Char.ofNat 0]
    else Char.ofNat (n % base + 1) :: digits fuel (n / base)

def printNat (n : ℕ) : List Char := digits n n

def parseNat : List Char → Option (ℕ × List Char)
  | [] => none
  | c :: rest =>
    if c.toNat = 0 then some (0, rest)
    else (parseNat rest).map fun (n, rest) => (c.toNat - 1 + base * n, rest)

def printString (s : String) : List Char := printNat (chars s).length ++ chars s

def parseString (chars : List Char) : Option (String × List Char) :=
  (parseNat chars).bind fun (n, rest) =>
    if n ≤ rest.length then some (text (rest.take n), rest.drop n) else none

def printInt (n : ℤ) : List Char := (if n < 0 then '-' else '+') :: printNat n.natAbs

def parseInt : List Char → Option (ℤ × List Char)
  | '-' :: rest => (parseNat rest).map fun (n, rest) => (-(n : ℤ), rest)
  | '+' :: rest => (parseNat rest).map fun (n, rest) => ((n : ℤ), rest)
  | _ => none

mutual

def print : Json ℚ → List Char
  | .null => ['n']
  | .bool value => [if value then 't' else 'f']
  | .int value => 'i' :: printInt value
  | .float value => 'q' :: (printInt value.num ++ printNat value.den)
  | .str value => 's' :: printString value
  | .arr items => 'a' :: (printNat items.length ++ printItems items)
  | .obj fields => 'o' :: (printNat fields.length ++ printFields fields)

def printItems : List (Json ℚ) → List Char
  | [] => []
  | item :: rest => print item ++ printItems rest

def printFields : List (String × Json ℚ) → List Char
  | [] => []
  | (name, value) :: rest => printString name ++ (print value ++ printFields rest)

end

/-- Run `parser` a fixed number of times. -/
def repeated {α : Type} (parser : List Char → Option (α × List Char)) :
    ℕ → List Char → Option (List α × List Char)
  | 0, chars => some ([], chars)
  | count + 1, chars =>
    (parser chars).bind fun (value, rest) =>
      (repeated parser count rest).map fun (values, rest) => (value :: values, rest)

/-- The fuel bounds the nesting of the value. -/
def parse : ℕ → List Char → Option (Json ℚ × List Char)
  | 0, _ => none
  | _, [] => none
  | fuel + 1, tag :: chars =>
    if tag = 'n' then some (.null, chars)
    else if tag = 't' then some (.bool true, chars)
    else if tag = 'f' then some (.bool false, chars)
    else if tag = 'i' then (parseInt chars).map fun (n, rest) => (.int n, rest)
    else if tag = 'q' then
      (parseInt chars).bind fun (num, rest) =>
        (parseNat rest).map fun (den, rest) => (.float (mkRat num den), rest)
    else if tag = 's' then (parseString chars).map fun (s, rest) => (.str s, rest)
    else if tag = 'a' then
      (parseNat chars).bind fun (count, rest) =>
        (repeated (parse fuel) count rest).map fun (items, rest) => (.arr items, rest)
    else if tag = 'o' then
      (parseNat chars).bind fun (count, rest) =>
        (repeated (fun chars => (parseString chars).bind fun (name, rest) =>
          (parse fuel rest).map fun (value, rest) => ((name, value), rest)) count rest).map
            fun (fields, rest) => (.obj fields, rest)
    else none

def printText (value : Json ℚ) : String := text (print value)

/-- Each level of nesting takes a character, so the length is fuel enough. -/
def parseText (s : String) : Option (Json ℚ) :=
  match parse (chars s).length (chars s) with
  | some (value, []) => some value
  | _ => none

/-! ### Characters and bytes -/

theorem utf8EncodeChar_ascii {c : Char} (h : (String.utf8EncodeChar c).all (·.toNat < 128)) :
    (String.utf8EncodeChar c).map (fun b => Char.ofNat b.toNat) = [c] := by
  by_cases hc : c.val.toNat ≤ 127
  · have hbyte : (UInt8.ofNat c.val.toNat).toNat = c.toNat := by
      rw [UInt8.toNat_ofNat']
      exact Nat.mod_eq_of_lt (by omega)
    simp only [String.utf8EncodeChar, hc, if_true, List.map_cons, List.map_nil, hbyte,
      Char.ofNat_toNat]
  · exfalso
    simp only [String.utf8EncodeChar, hc, if_false] at h
    split at h
    · simp at h
      omega
    · split at h
      · simp at h
        omega
      · simp at h
        omega

theorem utf8Encode_ascii {l : List Char} (h : l.utf8Encode.data.toList.all (·.toNat < 128)) :
    l.utf8Encode.data.toList.map (fun b => Char.ofNat b.toNat) = l := by
  induction l with
  | nil => rfl
  | cons c l ih =>
    rw [List.utf8Encode_cons, List.utf8Encode_singleton] at h ⊢
    simp only [ByteArray.data_append, Array.toList_append, List.data_toByteArray, List.all_append,
      Bool.and_eq_true, List.map_append] at h ⊢
    rw [ih h.2, utf8EncodeChar_ascii h.1]
    rfl

@[simp] theorem chars_eq_toList (s : String) : chars s = s.toList := by
  unfold chars
  simp only
  split
  · next h =>
      have hbytes : s.toByteArray = s.toList.utf8Encode := by
        rw [← String.toByteArray_ofList, String.ofList_toList]
      rw [hbytes] at h ⊢
      exact utf8Encode_ascii h
  · rfl

@[simp] theorem text_eq_ofList (chars : List Char) : text chars = String.ofList chars := by
  apply String.toByteArray_inj.mp
  rw [String.toByteArray_ofList]
  exact encode_eq chars

/-! ### The parser undoes the printer -/

theorem toNat_ofNat {n : ℕ} (h : n < 55296) : (Char.ofNat n).toNat = n := by
  have hvalid : n.isValidChar := Or.inl h
  rw [Char.ofNat, dif_pos hvalid]
  rfl

theorem parseNat_digits (fuel n : ℕ) (h : n ≤ fuel) (rest : List Char) :
    parseNat (digits fuel n ++ rest) = some (n, rest) := by
  induction fuel generalizing n with
  | zero =>
    have hn : n = 0 := by omega
    subst hn
    rfl
  | succ fuel ih =>
    by_cases hn : n = 0
    · subst hn
      rfl
    · have hdigit : n % base + 1 < 55296 := by
        have := Nat.mod_lt n (show 0 < base by decide)
        unfold base at *
        omega
      have hquotient : n / base ≤ fuel := by
        have := Nat.div_lt_self (Nat.pos_of_ne_zero hn) (show 1 < base by decide)
        omega
      simp only [digits, hn, if_false, List.cons_append, parseNat, toNat_ofNat hdigit,
        ih (n / base) hquotient, Option.map_some]
      rw [if_neg (by omega), Nat.add_sub_cancel, Nat.mod_add_div]

@[simp] theorem parseNat_printNat (n : ℕ) (rest : List Char) :
    parseNat (printNat n ++ rest) = some (n, rest) :=
  parseNat_digits n n (Nat.le_refl n) rest

@[simp] theorem parseString_printString (s : String) (rest : List Char) :
    parseString (printString s ++ rest) = some (s, rest) := by
  simp [parseString, printString, List.append_assoc]

@[simp] theorem parseInt_printInt (n : ℤ) (rest : List Char) :
    parseInt (printInt n ++ rest) = some (n, rest) := by
  unfold printInt
  split
  · next hneg =>
      simp only [List.cons_append, parseInt, parseNat_printNat, Option.map_some]
      rw [Int.ofNat_natAbs_of_nonpos (by omega), neg_neg]
  · next hnonneg =>
      simp only [List.cons_append, parseInt, parseNat_printNat, Option.map_some]
      rw [Int.natAbs_of_nonneg (by omega)]

mutual

def depth : Json ℚ → ℕ
  | .arr items => depthItems items + 1
  | .obj fields => depthFields fields + 1
  | _ => 1

def depthItems : List (Json ℚ) → ℕ
  | [] => 0
  | item :: rest => max (depth item) (depthItems rest)

def depthFields : List (String × Json ℚ) → ℕ
  | [] => 0
  | (_, value) :: rest => max (depth value) (depthFields rest)

end

mutual

theorem parse_print (value : Json ℚ) (fuel : ℕ) (h : depth value ≤ fuel) (rest : List Char) :
    parse fuel (print value ++ rest) = some (value, rest) := by
  cases fuel with
  | zero => cases value <;> simp [depth] at h
  | succ fuel =>
    cases value with
    | null => simp [print, parse]
    | bool value => cases value <;> simp [print, parse]
    | int value => simp [print, parse]
    | float value =>
      simp [print, parse, List.append_assoc, Rat.mkRat_self]
    | str value => simp [print, parse]
    | arr items =>
      have hitems := parse_printItems items fuel (by simpa [depth] using h) rest
      simp [print, parse, List.append_assoc, hitems]
    | obj fields =>
      have hfields := parse_printFields fields fuel (by simpa [depth] using h) rest
      simp [print, parse, List.append_assoc, hfields]

theorem parse_printItems (items : List (Json ℚ)) (fuel : ℕ) (h : depthItems items ≤ fuel)
    (rest : List Char) :
    repeated (parse fuel) items.length (printItems items ++ rest) = some (items, rest) := by
  cases items with
  | nil => rfl
  | cons item items =>
    simp only [depthItems, max_le_iff] at h
    have hitem := parse_print item fuel h.1 (printItems items ++ rest)
    have hitems := parse_printItems items fuel h.2 rest
    simp [printItems, repeated, List.append_assoc, hitem, hitems]

theorem parse_printFields (fields : List (String × Json ℚ)) (fuel : ℕ)
    (h : depthFields fields ≤ fuel) (rest : List Char) :
    repeated (fun chars => (parseString chars).bind fun (name, rest) =>
      (parse fuel rest).map fun (value, rest) => ((name, value), rest)) fields.length
        (printFields fields ++ rest) = some (fields, rest) := by
  cases fields with
  | nil => rfl
  | cons field fields =>
    obtain ⟨name, value⟩ := field
    simp only [depthFields, max_le_iff] at h
    have hvalue := parse_print value fuel h.1 (printFields fields ++ rest)
    have hfields := parse_printFields fields fuel h.2 rest
    simp [printFields, repeated, List.append_assoc, hvalue, hfields]

end

mutual

theorem depth_le_length (value : Json ℚ) : depth value ≤ (print value).length := by
  cases value with
  | arr items =>
    have := depthItems_le_length items
    simp only [depth, print, List.length_cons, List.length_append]
    omega
  | obj fields =>
    have := depthFields_le_length fields
    simp only [depth, print, List.length_cons, List.length_append]
    omega
  | _ => simp [depth, print]

theorem depthItems_le_length (items : List (Json ℚ)) :
    depthItems items ≤ (printItems items).length := by
  cases items with
  | nil => exact Nat.zero_le _
  | cons item items =>
    have := depth_le_length item
    have := depthItems_le_length items
    simp only [depthItems, printItems, List.length_append]
    omega

theorem depthFields_le_length (fields : List (String × Json ℚ)) :
    depthFields fields ≤ (printFields fields).length := by
  cases fields with
  | nil => exact Nat.zero_le _
  | cons field fields =>
    obtain ⟨name, value⟩ := field
    have := depth_le_length value
    have := depthFields_le_length fields
    simp only [depthFields, printFields, List.length_append]
    omega

end

theorem parseText_printText (value : Json ℚ) : parseText (printText value) = some value := by
  have h := parse_print value (print value).length (depth_le_length value) []
  rw [List.append_nil] at h
  simp [parseText, printText, h]

end PrefixCode

import Mathlib.Data.List.DropRight
import Mathlib.Data.Nat.Digits.Defs

/-!
Strings as JavaScript counts them, in UTF-16 code units, and how JSON quotes
them. A string is quoted unit by unit, except that a pair of surrogates stays
together and a lone one is escaped. A string of plain units is its own quoted
text.
-/

abbrev JsString := List UInt16

namespace JsString

/-- The units of a literal text, each of whose characters is one unit. -/
def js (s : String) : JsString := s.toList.map fun c => UInt16.ofNat c.toNat

/-! ### Quoting -/

def isHighSurrogate (u : UInt16) : Bool := 0xd800 ≤ u ∧ u ≤ 0xdbff

def isLowSurrogate (u : UInt16) : Bool := 0xdc00 ≤ u ∧ u ≤ 0xdfff

def hexDigit (u : UInt16) : UInt16 := if u < 10 then 48 + u else 87 + u

def unicodeEscape (u : UInt16) : JsString :=
  [92, 117, hexDigit (u / 4096), hexDigit (u / 256 % 16), hexDigit (u / 16 % 16), hexDigit (u % 16)]

def escapeUnit (u : UInt16) : JsString :=
  if u = 34 then [92, 34]
  else if u = 92 then [92, 92]
  else if u = 8 then [92, 98]
  else if u = 9 then [92, 116]
  else if u = 10 then [92, 110]
  else if u = 12 then [92, 102]
  else if u = 13 then [92, 114]
  else if u < 32 ∨ isHighSurrogate u ∨ isLowSurrogate u then unicodeEscape u
  else [u]

def quoteUnits : JsString → JsString
  | [] => []
  | [u] => escapeUnit u
  | u :: v :: rest =>
    if isHighSurrogate u ∧ isLowSurrogate v then u :: v :: quoteUnits rest
    else escapeUnit u ++ quoteUnits (v :: rest)

def quote (s : JsString) : JsString := 34 :: quoteUnits s ++ [34]

/-- A unit that stands for itself between quotes. -/
def Plain (u : UInt16) : Prop := 32 ≤ u ∧ u < 127 ∧ u ≠ 34 ∧ u ≠ 92

instance : DecidablePred Plain := fun u =>
  inferInstanceAs (Decidable (32 ≤ u ∧ u < 127 ∧ u ≠ 34 ∧ u ≠ 92))

theorem plain_of_all {s : JsString} (h : (s.all fun u => decide (Plain u)) = true) : ∀ u ∈ s, Plain u :=
  fun u hu => of_decide_eq_true (List.all_eq_true.mp h u hu)

theorem Plain.escapeUnit {u : UInt16} (h : Plain u) :
    escapeUnit u = [u] ∧ isHighSurrogate u = false := by
  obtain ⟨hlow, hhigh, hquote, hbackslash⟩ := h
  have hn : 32 ≤ u.toNat ∧ u.toNat < 127 := ⟨hlow, hhigh⟩
  have hne : ∀ v : UInt16, v.toNat < 32 → u ≠ v := fun v hv huv => by subst huv; omega
  have hsurrogate : isHighSurrogate u = false ∧ isLowSurrogate u = false := by
    simp only [isHighSurrogate, isLowSurrogate, decide_eq_false_iff_not, not_and, UInt16.le_iff_toNat_le]
    simp
    omega
  refine ⟨?_, hsurrogate.1⟩
  have hcontrol : ¬ u < 32 := by
    rw [UInt16.lt_iff_toNat_lt]
    simp
    omega
  simp [JsString.escapeUnit, hquote, hbackslash, hne 8, hne 9, hne 10, hne 12, hne 13, hcontrol,
    hsurrogate]

theorem quoteUnits_plain {s : JsString} (h : ∀ u ∈ s, Plain u) : quoteUnits s = s := by
  induction s using quoteUnits.induct with
  | case1 => rfl
  | case2 u => exact (h u (by simp)).escapeUnit.1
  | case3 u v rest hpair ih =>
    simp [(h u (by simp)).escapeUnit.2] at hpair
  | case4 u v rest hpair ih =>
    rw [quoteUnits, if_neg hpair, (h u (by simp)).escapeUnit.1, ih fun w hw => h w (by simp [hw])]
    rfl

theorem length_quote_plain {s : JsString} (h : ∀ u ∈ s, Plain u) :
    (quote s).length = s.length + 2 := by
  simp [quote, quoteUnits_plain h]

/-! ### Numbers and messages -/

/-- A natural number in decimal. -/
def ofNat (n : ℕ) : JsString := (Nat.toDigits 10 n).map fun c => UInt16.ofNat c.toNat

theorem ofNat_plain (n : ℕ) : ∀ u ∈ ofNat n, Plain u := by
  intro u hu
  obtain ⟨c, hc, rfl⟩ := List.mem_map.mp hu
  have hdigit : c.isDigit = true := Nat.isDigit_of_mem_toDigits (by decide) (by decide) hc
  have hbounds : 48 ≤ c.toNat ∧ c.toNat ≤ 57 := by
    simpa [Char.isDigit, UInt32.le_iff_toNat_le] using hdigit
  have hn : (UInt16.ofNat c.toNat).toNat = c.toNat := by
    rw [UInt16.toNat_ofNat']
    exact Nat.mod_eq_of_lt (by omega)
  simp only [Plain, UInt16.le_iff_toNat_le, UInt16.lt_iff_toNat_lt, ne_eq, ← UInt16.toNat_inj, hn]
  simp
  omega

theorem length_ofNat_le {n k : ℕ} (hk : 0 < k) (hn : n < 10 ^ k) : (ofNat n).length ≤ k := by
  rw [ofNat, List.length_map]
  exact (Nat.length_toDigits_le_iff (by decide) hk).mpr hn

def isControl (u : UInt16) : Bool := u ≤ 31 ∨ u = 127

/-- Each run of control units becomes one blank. `inRun` tells whether the last unit was one. -/
def blankControls : Bool → JsString → JsString
  | _, [] => []
  | inRun, u :: rest =>
    if isControl u then
      if inRun then blankControls true rest else 32 :: blankControls true rest
    else u :: blankControls false rest

def isSpace (u : UInt16) : Bool :=
  (9 ≤ u ∧ u ≤ 13) ∨ u = 32 ∨ u = 0xa0 ∨ u = 0x1680 ∨ (0x2000 ≤ u ∧ u ≤ 0x200a) ∨ u = 0x2028 ∨
    u = 0x2029 ∨ u = 0x202f ∨ u = 0x205f ∨ u = 0x3000 ∨ u = 0xfeff

def trim (s : JsString) : JsString := (s.dropWhile isSpace).rdropWhile isSpace

end JsString

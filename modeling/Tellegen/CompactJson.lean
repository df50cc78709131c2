import Tellegen.Lib.JsonText

/-!
Stored modules without formatting whitespace: a scan over the bytes of a text with two flags. On JSON the
scan drops what lies between the tokens and nothing else.
-/

open JsonText

namespace Tellegen.Multiconductor

structure Scan where
  quoted : Bool
  escaped : Bool
  deriving DecidableEq

def isAsciiWhitespace (byte : UInt8) : Bool :=
  byte = 0x20 || byte = 0x09 || byte = 0x0a || byte = 0x0c || byte = 0x0d

/-- Whether a byte is kept, and the flags after it. -/
def Scan.keep (scan : Scan) (byte : UInt8) : Bool × Scan :=
  if scan.quoted then
    if scan.escaped then (true, { scan with escaped := false })
    else if byte = 0x5c then (true, { scan with escaped := true })
    else if byte = 0x22 then (true, { scan with quoted := false })
    else (true, scan)
  else if byte = 0x22 then (true, { scan with quoted := true })
  else (!isAsciiWhitespace byte, scan)

def retain : Scan → List UInt8 → List UInt8
  | _, [] => []
  | scan, byte :: rest =>
    let (kept, next) := scan.keep byte
    if kept then byte :: retain next rest else retain next rest

/-- There is no text when the bytes that are left are not UTF-8. -/
def compactModuleJson (text : String) : Option String :=
  String.fromUTF8? (retain ⟨false, false⟩ text.toByteArray.data.toList).toByteArray

/-! ### Characters -/

def isAsciiSpace (c : Char) : Bool :=
  c.toNat = 0x20 || c.toNat = 0x09 || c.toNat = 0x0a || c.toNat = 0x0c || c.toNat = 0x0d

def Scan.keepChar (scan : Scan) (c : Char) : Bool × Scan :=
  if scan.quoted then
    if scan.escaped then (true, { scan with escaped := false })
    else if c = '\\' then (true, { scan with escaped := true })
    else if c = '"' then (true, { scan with quoted := false })
    else (true, scan)
  else if c = '"' then (true, { scan with quoted := true })
  else (!isAsciiSpace c, scan)

def retainChars : Scan → List Char → List Char
  | _, [] => []
  | scan, c :: rest =>
    let (kept, next) := scan.keepChar c
    if kept then c :: retainChars next rest else retainChars next rest

theorem keep_high {scan : Scan} (hscan : scan.quoted = true → scan.escaped = false) {b : UInt8}
    (hb : 0x80 ≤ b.toNat) : scan.keep b = (true, scan) := by
  have hne : ∀ n : UInt8, n.toNat < 0x80 → b ≠ n := by
    rintro n hn rfl
    omega
  have hspace : isAsciiWhitespace b = false := by
    simp [isAsciiWhitespace, hne 0x20 (by decide), hne 0x09 (by decide), hne 0x0a (by decide),
      hne 0x0c (by decide), hne 0x0d (by decide)]
  obtain ⟨quoted, escaped⟩ := scan
  cases quoted with
  | false => simp [Scan.keep, hne 0x22 (by decide), hspace]
  | true =>
    obtain rfl : escaped = false := hscan rfl
    simp [Scan.keep, hne 0x5c (by decide), hne 0x22 (by decide)]

theorem retain_high {scan : Scan} (hscan : scan.quoted = true → scan.escaped = false) {bytes : List UInt8}
    (hbytes : ∀ b ∈ bytes, 0x80 ≤ b.toNat) (rest : List UInt8) :
    retain scan (bytes ++ rest) = bytes ++ retain scan rest := by
  induction bytes with
  | nil => rfl
  | cons b bytes ih =>
    rw [List.forall_mem_cons] at hbytes
    rw [List.cons_append, retain, keep_high hscan hbytes.1]
    dsimp only
    rw [if_pos rfl, ih hbytes.2, List.cons_append]

theorem utf8EncodeChar_low {c : Char} (hc : c.toNat ≤ 0x7f) :
    String.utf8EncodeChar c = [UInt8.ofNat c.toNat] := if_pos hc

theorem utf8EncodeChar_high {c : Char} (hc : ¬ c.toNat ≤ 0x7f) :
    ∀ b ∈ String.utf8EncodeChar c, 0x80 ≤ b.toNat := by
  have hlow : ∀ n : ℕ, 0x80 ≤ (UInt8.ofNat (n % 0x40 + 0x80)).toNat := by
    intro n
    rw [UInt8.toNat_ofNat']
    omega
  intro b hb
  unfold String.utf8EncodeChar at hb
  dsimp only at hb
  have hval : ¬ c.val.toNat ≤ 0x7f := hc
  rw [if_neg hval] at hb
  split_ifs at hb
  · simp only [List.mem_cons, List.not_mem_nil, or_false] at hb
    rcases hb with rfl | rfl
    · rw [UInt8.toNat_ofNat']
      omega
    · exact hlow _
  · simp only [List.mem_cons, List.not_mem_nil, or_false] at hb
    rcases hb with rfl | rfl | rfl
    · rw [UInt8.toNat_ofNat']
      omega
    · exact hlow _
    · exact hlow _
  · simp only [List.mem_cons, List.not_mem_nil, or_false] at hb
    rcases hb with rfl | rfl | rfl | rfl
    · rw [UInt8.toNat_ofNat']
      omega
    · exact hlow _
    · exact hlow _
    · exact hlow _

theorem eq_ofNat_iff {c d : Char} {n : ℕ} (hc : c.toNat ≤ 0x7f) (hd : d.toNat = n) (hn : n ≤ 0x7f) :
    UInt8.ofNat c.toNat = UInt8.ofNat n ↔ c = d := by
  rw [← UInt8.toNat_inj, UInt8.toNat_ofNat', UInt8.toNat_ofNat']
  constructor
  · intro heq
    apply Char.ext
    apply UInt32.toNat_inj.mp
    change c.toNat = d.toNat
    omega
  · rintro rfl
    omega

theorem retain_char (scan : Scan) (c : Char) (rest : List UInt8) :
    retain scan (String.utf8EncodeChar c ++ rest) =
      (if (scan.keepChar c).1 then String.utf8EncodeChar c else []) ++ retain (scan.keepChar c).2 rest := by
  by_cases hc : c.toNat ≤ 0x7f
  · rw [utf8EncodeChar_low hc, List.singleton_append, retain]
    have hquote : UInt8.ofNat c.toNat = 0x22 ↔ c = '"' := eq_ofNat_iff hc rfl (by decide)
    have hslash : UInt8.ofNat c.toNat = 0x5c ↔ c = '\\' := eq_ofNat_iff hc rfl (by decide)
    have hspace : isAsciiWhitespace (UInt8.ofNat c.toNat) = isAsciiSpace c := by
      have hbyte : ∀ n : ℕ, n ≤ 0x7f → (UInt8.ofNat c.toNat = UInt8.ofNat n ↔ c.toNat = n) := by
        intro n hn
        rw [← UInt8.toNat_inj, UInt8.toNat_ofNat', UInt8.toNat_ofNat']
        omega
      have hblank : UInt8.ofNat c.toNat = 0x20 ↔ c.toNat = 0x20 := hbyte 0x20 (by decide)
      have htab : UInt8.ofNat c.toNat = 0x09 ↔ c.toNat = 0x09 := hbyte 0x09 (by decide)
      have hline : UInt8.ofNat c.toNat = 0x0a ↔ c.toNat = 0x0a := hbyte 0x0a (by decide)
      have hfeed : UInt8.ofNat c.toNat = 0x0c ↔ c.toNat = 0x0c := hbyte 0x0c (by decide)
      have hreturn : UInt8.ofNat c.toNat = 0x0d ↔ c.toNat = 0x0d := hbyte 0x0d (by decide)
      simp only [isAsciiWhitespace, isAsciiSpace, hblank, htab, hline, hfeed, hreturn]
    have hkeep : scan.keep (UInt8.ofNat c.toNat) = scan.keepChar c := by
      simp only [Scan.keep, Scan.keepChar, hquote, hslash, hspace]
    rw [hkeep]
    dsimp only
    split <;> rfl
  · have hhigh := utf8EncodeChar_high hc
    have hne : ∀ d : Char, d.toNat ≤ 0x7f → c ≠ d := by
      rintro d hd rfl
      exact hc hd
    have hspace : isAsciiSpace c = false := by
      have hcode : ∀ n : ℕ, n ≤ 0x7f → c.toNat ≠ n := by
        rintro n hn rfl
        exact hc hn
      simp [isAsciiSpace, hcode 0x20 (by decide), hcode 0x09 (by decide), hcode 0x0a (by decide),
        hcode 0x0c (by decide), hcode 0x0d (by decide)]
    have hquote := hne '"' (by decide)
    have hslash := hne '\\' (by decide)
    by_cases hscan : scan.quoted = true → scan.escaped = false
    · have hkeep : scan.keepChar c = (true, scan) := by
        obtain ⟨quoted, escaped⟩ := scan
        cases quoted with
        | false => simp [Scan.keepChar, hquote, hspace]
        | true =>
          obtain rfl : escaped = false := hscan rfl
          simp [Scan.keepChar, hquote, hslash]
      rw [hkeep, retain_high hscan hhigh]
      rfl
    · -- the first byte ends the escape
      obtain ⟨quoted, escaped⟩ := scan
      obtain ⟨rfl, hescaped⟩ := Classical.not_imp.mp hscan
      obtain rfl : escaped = true := (Bool.not_eq_false _).mp hescaped
      obtain ⟨b, bytes, hbytes⟩ := List.exists_cons_of_ne_nil (String.utf8EncodeChar_ne_nil (c := c))
      rw [hbytes, List.forall_mem_cons] at hhigh
      have hrest := @retain_high ⟨true, false⟩ (fun _ => rfl) _ hhigh.2 rest
      rw [hbytes, List.cons_append, retain]
      change b :: retain ⟨true, false⟩ (bytes ++ rest) = (b :: bytes) ++ retain ⟨true, false⟩ rest
      rw [hrest, List.cons_append]

theorem retain_flatMap (scan : Scan) (chars : List Char) :
    retain scan (chars.flatMap String.utf8EncodeChar) =
      (retainChars scan chars).flatMap String.utf8EncodeChar := by
  induction chars generalizing scan with
  | nil => rfl
  | cons c rest ih =>
    rw [List.flatMap_cons, retain_char, ih, retainChars]
    dsimp only
    split
    · rw [List.flatMap_cons]
    · rw [List.nil_append]

theorem compactModuleJson_eq (text : String) :
    compactModuleJson text = some (String.ofList (retainChars ⟨false, false⟩ text.toList)) := by
  have hbytes : text.toByteArray.data.toList = text.toList.flatMap String.utf8EncodeChar := by
    rw [← String.utf8Encode_toList, List.utf8Encode, List.toList_data_toByteArray]
  have hvalid : (retain ⟨false, false⟩ text.toByteArray.data.toList).toByteArray =
      (retainChars ⟨false, false⟩ text.toList).utf8Encode := by
    rw [hbytes, retain_flatMap]
    rfl
  rw [compactModuleJson, hvalid, String.fromUTF8?, dif_pos ByteArray.isValidUTF8_utf8Encode]
  rfl

/-! ### Tokens -/

def scanOf : Mode → Scan
  | .gap => ⟨false, false⟩
  | .word _ => ⟨false, false⟩
  | .text _ => ⟨true, false⟩
  | .escape _ => ⟨true, true⟩
  | .hex _ _ => ⟨true, false⟩

/-- What the tokenizer has read of the next token. -/
def pending : Mode → List Char
  | .gap => []
  | .word spelling => spelling
  | .text raw => '"' :: raw
  | .escape raw => '"' :: raw
  | .hex raw _ => '"' :: raw

/-- The scan and the tokenizer keep the same characters. -/
def Agrees (mode : Mode) (c : Char) (tokens : List Token) (next : Mode) : Prop :=
  ((scanOf mode).keepChar c).2 = scanOf next ∧
    pending mode ++ (if ((scanOf mode).keepChar c).1 then [c] else []) = print tokens ++ pending next

theorem keepChar_other {c : Char} (hquote : c ≠ '"') :
    Scan.keepChar ⟨false, false⟩ c = (!isAsciiSpace c, ⟨false, false⟩) := by
  rw [Scan.keepChar, if_neg Bool.false_ne_true, if_neg hquote]

theorem eq_char_of_markOf {c : Char} {m : Mark} (h : markOf c = some m) : c = m.char := by
  unfold markOf at h
  split_ifs at h with hc hc hc hc hc hc
  all_goals
    obtain rfl := Option.some.inj h
    exact hc

theorem isAsciiSpace_word {c : Char} (hword : isWordChar c = true) : isAsciiSpace c = false := by
  by_contra hspace
  rw [Bool.not_eq_false, isAsciiSpace] at hspace
  simp only [Bool.or_eq_true, decide_eq_true_eq] at hspace
  have hcode : ∀ n : ℕ, ∀ d : Char, d.toNat = n → isWordChar d = false → c.toNat ≠ n := by
    intro n d hd hfalse heq
    have hcd : c = d := Char.ext (UInt32.toNat_inj.mp (heq.trans hd.symm))
    rw [hcd, hfalse] at hword
    exact Bool.false_ne_true hword
  rcases hspace with (((hc | hc) | hc) | hc) | hc
  · exact hcode _ ' ' rfl rfl hc
  · exact hcode _ '\t' rfl rfl hc
  · exact hcode _ '\n' rfl rfl hc
  · exact hcode _ '\x0c' rfl rfl hc
  · exact hcode _ '\r' rfl rfl hc

theorem agrees_begin {c : Char} {tokens : List Token} {next : Mode} (h : begin c = some (tokens, next)) :
    Agrees .gap c tokens next := by
  unfold begin at h
  split at h
  case isTrue hspace =>
    obtain ⟨rfl, rfl⟩ := Prod.mk.inj (Option.some.inj h)
    rw [isSpace, Bool.or_eq_true, Bool.or_eq_true, Bool.or_eq_true] at hspace
    simp only [decide_eq_true_eq] at hspace
    rcases hspace with ((rfl | rfl) | rfl) | rfl
    all_goals exact ⟨rfl, rfl⟩
  split at h
  case isTrue _ hquote =>
    obtain ⟨rfl, rfl⟩ := Prod.mk.inj (Option.some.inj h)
    subst hquote
    exact ⟨rfl, rfl⟩
  case isFalse _ hquote =>
    have hkeep := keepChar_other hquote
    split at h
    case isTrue hword =>
      obtain ⟨rfl, rfl⟩ := Prod.mk.inj (Option.some.inj h)
      rw [isAsciiSpace_word hword] at hkeep
      refine ⟨by rw [scanOf, hkeep]; rfl, ?_⟩
      rw [scanOf, hkeep]
      rfl
    case isFalse =>
      obtain ⟨m, hm, heq⟩ := Option.map_eq_some_iff.mp h
      obtain ⟨rfl, rfl⟩ := Prod.mk.inj heq
      rw [eq_char_of_markOf hm]
      cases m <;> exact ⟨rfl, rfl⟩

theorem agrees_inside {mode next : Mode} {c : Char} (hkeep : (scanOf mode).keepChar c = (true, scanOf next))
    (hpending : pending mode ++ [c] = pending next) : Agrees mode c [] next := by
  refine ⟨by rw [hkeep], ?_⟩
  rw [hkeep]
  exact hpending

theorem isHex_plain {c : Char} (h : isHex c = true) : c ≠ '"' ∧ c ≠ '\\' := by
  constructor
  all_goals
    rintro rfl
    exact absurd h (by decide)

theorem agrees_step {mode next : Mode} {c : Char} {tokens : List Token}
    (h : step mode c = some (tokens, next)) : Agrees mode c tokens next := by
  have hinside : c ≠ '"' → c ≠ '\\' → Scan.keepChar ⟨true, false⟩ c = (true, ⟨true, false⟩) := by
    intro hquote hslash
    rw [Scan.keepChar, if_pos rfl, if_neg Bool.false_ne_true, if_neg hslash, if_neg hquote]
  cases mode with
  | gap => exact agrees_begin h
  | word spelling =>
    rw [step] at h
    split at h
    case isTrue hword =>
      obtain ⟨rfl, rfl⟩ := Prod.mk.inj (Option.some.inj h)
      obtain ⟨hscan, hchars⟩ := agrees_begin (begin_word hword)
      refine ⟨hscan, ?_⟩
      exact congrArg (spelling ++ ·) hchars
    case isFalse =>
      obtain ⟨⟨more, after⟩, hbegin, heq⟩ := Option.map_eq_some_iff.mp h
      obtain ⟨rfl, rfl⟩ := Prod.mk.inj heq
      obtain ⟨hscan, hchars⟩ := agrees_begin hbegin
      refine ⟨hscan, ?_⟩
      rw [print, List.flatMap_cons, List.append_assoc]
      exact congrArg (spelling ++ ·) hchars
  | text raw =>
    rw [step] at h
    split at h
    case isTrue hquote =>
      obtain ⟨rfl, rfl⟩ := Prod.mk.inj (Option.some.inj h)
      subst hquote
      exact ⟨rfl, by rw [print, List.flatMap_singleton]; exact (List.append_nil _).symm⟩
    case isFalse hquote =>
      split at h
      case isTrue hslash =>
        obtain ⟨rfl, rfl⟩ := Prod.mk.inj (Option.some.inj h)
        subst hslash
        exact agrees_inside rfl rfl
      case isFalse hslash =>
        split at h
        · cases h
        · obtain ⟨rfl, rfl⟩ := Prod.mk.inj (Option.some.inj h)
          exact agrees_inside (hinside hquote hslash) rfl
  | escape raw =>
    have hkeep : Scan.keepChar ⟨true, true⟩ c = (true, ⟨true, false⟩) := rfl
    rw [step] at h
    split at h
    · obtain ⟨rfl, rfl⟩ := Prod.mk.inj (Option.some.inj h)
      exact agrees_inside hkeep rfl
    split at h
    · obtain ⟨rfl, rfl⟩ := Prod.mk.inj (Option.some.inj h)
      exact agrees_inside hkeep rfl
    · cases h
  | hex raw left =>
    cases left with
    | zero =>
      rw [step] at h
      split at h
      case isTrue hhex =>
        obtain ⟨rfl, rfl⟩ := Prod.mk.inj (Option.some.inj h)
        exact agrees_inside (hinside (isHex_plain hhex).1 (isHex_plain hhex).2) rfl
      case isFalse => cases h
    | succ left =>
      rw [step] at h
      split at h
      case isTrue hhex =>
        obtain ⟨rfl, rfl⟩ := Prod.mk.inj (Option.some.inj h)
        exact agrees_inside (hinside (isHex_plain hhex).1 (isHex_plain hhex).2) rfl
      case isFalse => cases h

theorem retainChars_lexFrom {text : List Char} {mode : Mode} {tokens : List Token}
    (h : lexFrom mode text = some tokens) : pending mode ++ retainChars (scanOf mode) text = print tokens := by
  induction text generalizing mode tokens with
  | nil =>
    rw [lexFrom] at h
    cases mode with
    | gap =>
      obtain rfl := Option.some.inj h
      rfl
    | word spelling =>
      obtain rfl := Option.some.inj h
      rw [print, List.flatMap_singleton]
      exact List.append_nil _
    | text raw => cases h
    | escape raw => cases h
    | hex raw left => cases h
  | cons c rest ih =>
    rw [lexFrom] at h
    obtain ⟨⟨emitted, next⟩, hstep, hrest⟩ := Option.bind_eq_some_iff.mp h
    obtain ⟨more, hmore, rfl⟩ := Option.map_eq_some_iff.mp hrest
    obtain ⟨hscan, hchars⟩ := agrees_step hstep
    have hafter := ih hmore
    have hsplit : retainChars (scanOf mode) (c :: rest) =
        (if ((scanOf mode).keepChar c).1 then [c] else []) ++
          retainChars ((scanOf mode).keepChar c).2 rest := by
      rw [retainChars]
      dsimp only
      split <;> rfl
    rw [hsplit, ← List.append_assoc, hchars, hscan, List.append_assoc, hafter]
    exact (List.flatMap_append ..).symm

/-! ### Compaction -/

/-- No white space outside strings. -/
def Compact (tokens : List Token) : Prop :=
  ∀ t ∈ tokens, (∃ raw, t = .text raw) ∨ ∀ c ∈ t.chars, isAsciiSpace c = false

theorem compact_of_valid {tokens : List Token} (h : ∀ t ∈ tokens, t.Valid) : Compact tokens := by
  intro t ht
  cases t with
  | mark m =>
    right
    intro c hc
    rw [List.mem_singleton.mp hc]
    cases m <;> rfl
  | text raw => exact .inl ⟨raw, rfl⟩
  | word spelling =>
    right
    have hword : ValidWord spelling := h _ ht
    exact fun c hc => isAsciiSpace_word (hword.2 c hc)

/-- Compacting the text of a value keeps its tokens, so it keeps the value with its strings and numbers as
they are spelled; nothing is left between the tokens, and compacting again changes nothing. -/
theorem compact_preserves_document (text : String) (v : Value) (h : Denotes text.toList v) :
    ∃ out tokens, compactModuleJson text = some out ∧
      lex text.toList = some tokens ∧ lex out.toList = some tokens ∧
      (∀ v', Denotes out.toList v' ↔ Denotes text.toList v') ∧
      out.toList = print tokens ∧ Compact tokens ∧ compactModuleJson out = some out := by
  obtain ⟨tokens, hlex, hspells⟩ := h
  have hvalid : ∀ t ∈ tokens, t.Valid := @valid_of_lexFrom _ .gap _ trivial hlex
  have hprint : retainChars ⟨false, false⟩ text.toList = print tokens :=
    @retainChars_lexFrom _ .gap _ hlex
  have hagain : lex (print tokens) = some tokens := lex_print hvalid hspells.separated
  have hout : (String.ofList (print tokens)).toList = print tokens := String.toList_ofList
  refine ⟨String.ofList (print tokens), tokens, ?_, hlex, by rw [hout, hagain], ?_, hout,
    compact_of_valid hvalid, ?_⟩
  · rw [compactModuleJson_eq, hprint]
  · intro v'
    rw [hout, Denotes, Denotes, hagain, hlex]
  · have hsame : retainChars ⟨false, false⟩ (print tokens) = print tokens :=
      @retainChars_lexFrom _ .gap _ hagain
    rw [compactModuleJson_eq, hout, hsame]

/-- A list of a number and a string with an escaped quote, a letter beyond ASCII and a blank. -/
def spacedList : List Char := ['[', '1', ' ', ',', '\n', '"', '\\', '"', 'é', ' ', '"', ']']

theorem denotes_spacedList :
    Denotes spacedList (.array [.number ['1'], .string ['\\', '"', 'é', ' ']]) := by
  refine ⟨[.mark .openBracket, .word ['1'], .mark .comma, .text ['\\', '"', 'é', ' '], .mark .closeBracket],
    by decide, ?_⟩
  have hnumber : Spells (.value (.number ['1'])) [.word ['1']] := .scalar rfl
  have hitems : Spells (.items [.number ['1'], .string ['\\', '"', 'é', ' ']])
      [.word ['1'], .mark .comma, .text ['\\', '"', 'é', ' ']] := .items hnumber (.item (.string _))
  exact .array hitems

theorem compact_preserves_document_list :
    Denotes spacedList (.array [.number ['1'], .string ['\\', '"', 'é', ' ']]) ∧
      ∃ out, compactModuleJson (String.ofList spacedList) = some out ∧ compactModuleJson out = some out := by
  have hdenotes : Denotes (String.ofList spacedList).toList
      (.array [.number ['1'], .string ['\\', '"', 'é', ' ']]) := by
    rw [String.toList_ofList]
    exact denotes_spacedList
  obtain ⟨out, -, hout, -, -, -, -, -, hagain⟩ := compact_preserves_document _ _ hdenotes
  exact ⟨denotes_spacedList, out, hout, hagain⟩

end Tellegen.Multiconductor

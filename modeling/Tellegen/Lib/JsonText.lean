import Mathlib.Data.List.Chain

/-!
JSON text, in two steps: a tokenizer that reads one character at a time, and the grammar of values over its
tokens. Strings and numbers are kept as they are spelled. Tokens laid one after another, with no space
between them, read back as the same tokens as long as no two words touch; in the text of a value none do.
-/

namespace JsonText

/-! ### Tokens -/

inductive Mark where
  | openBrace | closeBrace | openBracket | closeBracket | comma | colon
  deriving DecidableEq

def Mark.char : Mark → Char
  | .openBrace => '\x7b'
  | .closeBrace => '\x7d'
  | .openBracket => '['
  | .closeBracket => ']'
  | .comma => ','
  | .colon => ':'

/-- A mark, the text between two quotes, or the spelling of a number or a literal. -/
inductive Token where
  | mark (mark : Mark)
  | text (raw : List Char)
  | word (spelling : List Char)
  deriving DecidableEq

def Token.isWord : Token → Bool
  | .word _ => true
  | _ => false

def Token.chars : Token → List Char
  | .mark m => [m.char]
  | .text raw => '"' :: raw ++ ['"']
  | .word spelling => spelling

def print (tokens : List Token) : List Char := tokens.flatMap Token.chars

def isSpace (c : Char) : Bool := c = ' ' || c = '\t' || c = '\n' || c = '\r'

def markOf (c : Char) : Option Mark :=
  if c = '\x7b' then some .openBrace
  else if c = '\x7d' then some .closeBrace
  else if c = '[' then some .openBracket
  else if c = ']' then some .closeBracket
  else if c = ',' then some .comma
  else if c = ':' then some .colon
  else none

def isWordChar (c : Char) : Bool := c.isAlphanum || c = '+' || c = '-' || c = '.'

def isHex (c : Char) : Bool := c.isDigit || ('a' ≤ c && c ≤ 'f') || ('A' ≤ c && c ≤ 'F')

def isEscape (c : Char) : Bool :=
  c = '"' || c = '\\' || c = '/' || c = 'b' || c = 'f' || c = 'n' || c = 'r' || c = 't'

/-! ### The tokenizer -/

/-- Where the tokenizer is; `hex raw left` still reads `left + 1` digits. -/
inductive Mode where
  | gap
  | word (spelling : List Char)
  | text (raw : List Char)
  | escape (raw : List Char)
  | hex (raw : List Char) (left : ℕ)
  deriving DecidableEq

/-- Reads a character between tokens. -/
def begin (c : Char) : Option (List Token × Mode) :=
  if isSpace c then some ([], .gap)
  else if c = '"' then some ([], .text [])
  else if isWordChar c then some ([], .word [c])
  else (markOf c).map fun m => ([.mark m], .gap)

def step : Mode → Char → Option (List Token × Mode)
  | .gap, c => begin c
  | .word spelling, c =>
    if isWordChar c then some ([], .word (spelling ++ [c]))
    else (begin c).map fun (tokens, mode) => (.word spelling :: tokens, mode)
  | .text raw, c =>
    if c = '"' then some ([.text raw], .gap)
    else if c = '\\' then some ([], .escape (raw ++ [c]))
    else if c.toNat < 32 then none
    else some ([], .text (raw ++ [c]))
  | .escape raw, c =>
    if c = 'u' then some ([], .hex (raw ++ [c]) 3)
    else if isEscape c then some ([], .text (raw ++ [c]))
    else none
  | .hex raw left, c =>
    if isHex c then
      match left with
      | 0 => some ([], .text (raw ++ [c]))
      | left + 1 => some ([], .hex (raw ++ [c]) left)
    else none

def finish : Mode → Option (List Token)
  | .gap => some []
  | .word spelling => some [.word spelling]
  | _ => none

def lexFrom : Mode → List Char → Option (List Token)
  | mode, [] => finish mode
  | mode, c :: rest => (step mode c).bind fun (tokens, next) => (lexFrom next rest).map (tokens ++ ·)

def lex (text : List Char) : Option (List Token) := lexFrom .gap text

/-! ### Values -/

inductive Value where
  | null
  | bool (value : Bool)
  | number (spelling : List Char)
  | string (raw : List Char)
  | array (items : List Value)
  | object (members : List (List Char × Value))

def integerPart : List Char → Option (List Char)
  | '0' :: rest => some rest
  | c :: rest => if c.isDigit then some (rest.dropWhile Char.isDigit) else none
  | [] => none

/-- At least one digit, and what follows the digits. -/
def someDigits : List Char → Option (List Char)
  | c :: rest => if c.isDigit then some (rest.dropWhile Char.isDigit) else none
  | [] => none

def fractionPart : List Char → Option (List Char)
  | '.' :: rest => someDigits rest
  | rest => some rest

def exponentPart : List Char → Option (List Char)
  | c :: rest =>
    if c = 'e' || c = 'E' then
      match rest with
      | '+' :: rest => someDigits rest
      | '-' :: rest => someDigits rest
      | rest => someDigits rest
    else some (c :: rest)
  | [] => some []

def isNumber (spelling : List Char) : Bool :=
  let unsigned :=
    match spelling with
    | '-' :: rest => rest
    | rest => rest
  (((integerPart unsigned).bind fractionPart).bind exponentPart) = some []

def scalar (spelling : List Char) : Option Value :=
  if spelling = ['n', 'u', 'l', 'l'] then some .null
  else if spelling = ['t', 'r', 'u', 'e'] then some (.bool true)
  else if spelling = ['f', 'a', 'l', 's', 'e'] then some (.bool false)
  else if isNumber spelling then some (.number spelling)
  else none

inductive Node where
  | value (value : Value)
  | items (items : List Value)
  | members (members : List (List Char × Value))

/-- The grammar. -/
inductive Spells : Node → List Token → Prop where
  | scalar {spelling : List Char} {v : Value} (h : scalar spelling = some v) :
      Spells (.value v) [.word spelling]
  | string (raw : List Char) : Spells (.value (.string raw)) [.text raw]
  | emptyArray : Spells (.value (.array [])) [.mark .openBracket, .mark .closeBracket]
  | array {items : List Value} {tokens : List Token} (h : Spells (.items items) tokens) :
      Spells (.value (.array items)) (.mark .openBracket :: (tokens ++ [.mark .closeBracket]))
  | emptyObject : Spells (.value (.object [])) [.mark .openBrace, .mark .closeBrace]
  | object {members : List (List Char × Value)} {tokens : List Token} (h : Spells (.members members) tokens) :
      Spells (.value (.object members)) (.mark .openBrace :: (tokens ++ [.mark .closeBrace]))
  | item {v : Value} {tokens : List Token} (h : Spells (.value v) tokens) : Spells (.items [v]) tokens
  | items {v : Value} {rest : List Value} {tokens more : List Token} (h : Spells (.value v) tokens)
      (hrest : Spells (.items rest) more) : Spells (.items (v :: rest)) (tokens ++ .mark .comma :: more)
  | member {key : List Char} {v : Value} {tokens : List Token} (h : Spells (.value v) tokens) :
      Spells (.members [(key, v)]) (.text key :: .mark .colon :: tokens)
  | members {key : List Char} {v : Value} {rest : List (List Char × Value)} {tokens more : List Token}
      (h : Spells (.value v) tokens) (hrest : Spells (.members rest) more) :
      Spells (.members ((key, v) :: rest)) (.text key :: .mark .colon :: (tokens ++ .mark .comma :: more))

/-- The text is JSON for the value. -/
def Denotes (text : List Char) (v : Value) : Prop := ∃ tokens, lex text = some tokens ∧ Spells (.value v) tokens

/-! ### Words apart -/

/-- No word touches another. -/
def Separated (tokens : List Token) : Prop := tokens.IsChain fun a b => ¬ (a.isWord ∧ b.isWord)

theorem Separated.cons_mark {m : Mark} {tokens : List Token} (h : Separated tokens) :
    Separated (.mark m :: tokens) := by
  cases tokens with
  | nil => exact List.isChain_singleton _
  | cons t rest => exact List.isChain_cons_cons.mpr ⟨fun hwords => (nomatch hwords.1), h⟩

theorem Separated.cons_text {raw : List Char} {tokens : List Token} (h : Separated tokens) :
    Separated (.text raw :: tokens) := by
  cases tokens with
  | nil => exact List.isChain_singleton _
  | cons t rest => exact List.isChain_cons_cons.mpr ⟨fun hwords => (nomatch hwords.1), h⟩

theorem Separated.append_mark {m : Mark} {tokens more : List Token} (h : Separated tokens)
    (hmore : Separated more) : Separated (tokens ++ .mark m :: more) := by
  apply List.IsChain.append h hmore.cons_mark
  intro a _ b hb hwords
  rw [List.head?_cons, Option.mem_some_iff] at hb
  rw [← hb] at hwords
  exact nomatch hwords.2

/-- In the text of a value two words never touch. -/
theorem Spells.separated {node : Node} {tokens : List Token} (h : Spells node tokens) : Separated tokens := by
  induction h with
  | scalar _ => exact List.isChain_singleton _
  | string raw => exact List.isChain_singleton _
  | emptyArray => exact Separated.cons_mark (List.isChain_singleton _)
  | array _ ih => exact (ih.append_mark List.isChain_nil).cons_mark
  | emptyObject => exact Separated.cons_mark (List.isChain_singleton _)
  | object _ ih => exact (ih.append_mark List.isChain_nil).cons_mark
  | item _ ih => exact ih
  | items _ _ ih ihrest => exact ih.append_mark ihrest
  | member _ ih => exact ih.cons_mark.cons_text
  | members _ _ ih ihrest => exact (ih.append_mark ihrest).cons_mark.cons_text

/-! ### Reading what was printed -/

theorem begin_word {c : Char} (h : isWordChar c = true) : begin c = some ([], .word [c]) := by
  have hspace : isSpace c = false := by
    by_contra hspace
    rw [Bool.not_eq_false, isSpace, Bool.or_eq_true, Bool.or_eq_true, Bool.or_eq_true] at hspace
    simp only [decide_eq_true_eq] at hspace
    rcases hspace with ((rfl | rfl) | rfl) | rfl
    all_goals exact absurd h (by decide)
  have hquote : c ≠ '"' := by
    rintro rfl
    exact absurd h (by decide)
  rw [begin, hspace, if_neg Bool.false_ne_true, if_neg hquote, if_pos h]

theorem begin_mark (m : Mark) : begin m.char = some ([.mark m], .gap) := by
  cases m <;> rfl

theorem not_isWordChar_mark (m : Mark) : isWordChar m.char = false := by
  cases m <;> rfl

theorem map_nil_append (tokens : Option (List Token)) : tokens.map ([] ++ ·) = tokens := by
  cases tokens <;> rfl

theorem lexFrom_cons {mode next : Mode} {c : Char} {emitted : List Token}
    (h : step mode c = some (emitted, next)) (rest : List Char) :
    lexFrom mode (c :: rest) = (lexFrom next rest).map (emitted ++ ·) := by
  rw [lexFrom, h]
  rfl

/-- Reading the characters of a string leads from its start to where the tokenizer is. -/
def Reaches (raw : List Char) (mode : Mode) : Prop :=
  ∀ rest, lexFrom (.text []) (raw ++ rest) = lexFrom mode rest

theorem Reaches.step {raw : List Char} {mode next : Mode} {c : Char} (h : Reaches raw mode)
    (hstep : step mode c = some ([], next)) : Reaches (raw ++ [c]) next := by
  intro rest
  rw [List.append_assoc, h, List.singleton_append, lexFrom_cons hstep]
  exact map_nil_append _

def ValidWord (spelling : List Char) : Prop := spelling ≠ [] ∧ ∀ c ∈ spelling, isWordChar c = true

def Token.Valid : Token → Prop
  | .mark _ => True
  | .word spelling => ValidWord spelling
  | .text raw => Reaches raw (.text raw)

def Mode.Valid : Mode → Prop
  | .gap => True
  | .word spelling => ValidWord spelling
  | .text raw => Reaches raw (.text raw)
  | .escape raw => Reaches raw (.escape raw)
  | .hex raw left => Reaches raw (.hex raw left)

theorem valid_begin {c : Char} {tokens : List Token} {next : Mode} (h : begin c = some (tokens, next)) :
    (∀ t ∈ tokens, t.Valid) ∧ next.Valid := by
  unfold begin at h
  split at h
  · obtain ⟨rfl, rfl⟩ := Prod.mk.inj (Option.some.inj h)
    exact ⟨fun t ht => absurd ht List.not_mem_nil, trivial⟩
  split at h
  · obtain ⟨rfl, rfl⟩ := Prod.mk.inj (Option.some.inj h)
    exact ⟨fun t ht => absurd ht List.not_mem_nil, fun rest => rfl⟩
  split at h
  case isTrue hword =>
    obtain ⟨rfl, rfl⟩ := Prod.mk.inj (Option.some.inj h)
    refine ⟨fun t ht => absurd ht List.not_mem_nil, List.cons_ne_nil _ _, fun d hd => ?_⟩
    rwa [List.mem_singleton.mp hd]
  case isFalse =>
    obtain ⟨m, -, hm⟩ := Option.map_eq_some_iff.mp h
    obtain ⟨rfl, rfl⟩ := Prod.mk.inj hm
    refine ⟨fun t ht => ?_, trivial⟩
    rw [List.mem_singleton.mp ht]
    trivial

theorem valid_step {mode next : Mode} {c : Char} {tokens : List Token} (hmode : mode.Valid)
    (h : step mode c = some (tokens, next)) : (∀ t ∈ tokens, t.Valid) ∧ next.Valid := by
  have hnone : ∀ t ∈ ([] : List Token), t.Valid := fun t ht => absurd ht List.not_mem_nil
  have hstep := h
  cases mode with
  | gap => exact valid_begin h
  | word spelling =>
    rw [step] at h
    split at h
    case isTrue hword =>
      obtain ⟨rfl, rfl⟩ := Prod.mk.inj (Option.some.inj h)
      refine ⟨hnone, fun hnil => ?_, fun d hd => ?_⟩
      · exact absurd hnil (List.append_ne_nil_of_right_ne_nil _ (List.cons_ne_nil _ _))
      · rcases List.mem_append.mp hd with hd | hd
        · exact hmode.2 d hd
        · rwa [List.mem_singleton.mp hd]
    case isFalse =>
      obtain ⟨⟨more, after⟩, hbegin, heq⟩ := Option.map_eq_some_iff.mp h
      obtain ⟨rfl, rfl⟩ := Prod.mk.inj heq
      obtain ⟨htokens, hnext⟩ := valid_begin hbegin
      exact ⟨List.forall_mem_cons.mpr ⟨hmode, htokens⟩, hnext⟩
  | text raw =>
    rw [step] at h
    split at h
    · obtain ⟨rfl, rfl⟩ := Prod.mk.inj (Option.some.inj h)
      exact ⟨List.forall_mem_singleton.mpr hmode, trivial⟩
    split at h
    · obtain ⟨rfl, rfl⟩ := Prod.mk.inj (Option.some.inj h)
      exact ⟨hnone, Reaches.step hmode hstep⟩
    split at h
    · exact nomatch h
    · obtain ⟨rfl, rfl⟩ := Prod.mk.inj (Option.some.inj h)
      exact ⟨hnone, Reaches.step hmode hstep⟩
  | escape raw =>
    rw [step] at h
    split at h
    · obtain ⟨rfl, rfl⟩ := Prod.mk.inj (Option.some.inj h)
      exact ⟨hnone, Reaches.step hmode hstep⟩
    split at h
    · obtain ⟨rfl, rfl⟩ := Prod.mk.inj (Option.some.inj h)
      exact ⟨hnone, Reaches.step hmode hstep⟩
    · exact nomatch h
  | hex raw left =>
    cases left with
    | zero =>
      rw [step] at h
      split at h
      · obtain ⟨rfl, rfl⟩ := Prod.mk.inj (Option.some.inj h)
        exact ⟨hnone, Reaches.step hmode hstep⟩
      · exact nomatch h
    | succ left =>
      rw [step] at h
      split at h
      · obtain ⟨rfl, rfl⟩ := Prod.mk.inj (Option.some.inj h)
        exact ⟨hnone, Reaches.step hmode hstep⟩
      · exact nomatch h

/-- Every token that is read reads back by itself. -/
theorem valid_of_lexFrom {text : List Char} {mode : Mode} {tokens : List Token} (hmode : mode.Valid)
    (h : lexFrom mode text = some tokens) : ∀ t ∈ tokens, t.Valid := by
  induction text generalizing mode tokens with
  | nil =>
    rw [lexFrom] at h
    cases mode with
    | gap =>
      obtain rfl := Option.some.inj h
      exact fun t ht => absurd ht List.not_mem_nil
    | word spelling =>
      obtain rfl := Option.some.inj h
      exact List.forall_mem_singleton.mpr hmode
    | text raw => exact nomatch h
    | escape raw => exact nomatch h
    | hex raw left => exact nomatch h
  | cons c rest ih =>
    rw [lexFrom] at h
    obtain ⟨⟨emitted, next⟩, hstep, hrest⟩ := Option.bind_eq_some_iff.mp h
    obtain ⟨more, hmore, rfl⟩ := Option.map_eq_some_iff.mp hrest
    obtain ⟨hemitted, hnext⟩ := valid_step hmode hstep
    intro t ht
    rcases List.mem_append.mp ht with ht | ht
    · exact hemitted t ht
    · exact ih hnext hmore t ht

theorem lexFrom_word (more spelling rest : List Char) (hmore : ∀ c ∈ more, isWordChar c = true) :
    lexFrom (.word spelling) (more ++ rest) = lexFrom (.word (spelling ++ more)) rest := by
  induction more generalizing spelling with
  | nil => rw [List.nil_append, List.append_nil]
  | cons c more ih =>
    rw [List.forall_mem_cons] at hmore
    have hstep : step (.word spelling) c = some ([], .word (spelling ++ [c])) := if_pos hmore.1
    rw [List.cons_append, lexFrom_cons hstep]
    refine (map_nil_append _).trans ?_
    rw [ih (spelling ++ [c]) hmore.2, List.append_assoc, List.singleton_append]

/-- A word ends where its characters do. -/
theorem lexFrom_word_end (spelling : List Char) {rest : List Char}
    (hrest : ∀ c ∈ rest.head?, isWordChar c = false) :
    lexFrom (.word spelling) rest = (lexFrom .gap rest).map (.word spelling :: ·) := by
  cases rest with
  | nil => rfl
  | cons c rest =>
    have hword : ¬ isWordChar c = true := by
      rw [hrest c rfl]
      exact Bool.false_ne_true
    have hstep : step (.word spelling) c =
        (begin c).map fun (tokens, mode) => (.word spelling :: tokens, mode) := if_neg hword
    rw [lexFrom, lexFrom, hstep]
    change ((begin c).map _).bind _ = ((begin c).bind _).map _
    cases begin c with
    | none => rfl
    | some next =>
      rw [Option.map_some, Option.bind_some, Option.bind_some, Option.map_map]
      rfl

theorem head_print {t : Token} {tokens : List Token} (h : t.isWord = false) :
    ∀ c ∈ (print (t :: tokens)).head?, isWordChar c = false := by
  intro c hc
  cases t with
  | mark m =>
    obtain rfl := Option.some.inj hc
    exact not_isWordChar_mark m
  | text raw =>
    obtain rfl := Option.some.inj hc
    rfl
  | word spelling => exact nomatch h

/-- Tokens with nothing between them read back when no words touch. -/
theorem lex_print {tokens : List Token} (hvalid : ∀ t ∈ tokens, t.Valid) (h : Separated tokens) :
    lex (print tokens) = some tokens := by
  unfold lex
  induction tokens with
  | nil => rfl
  | cons t tokens ih =>
    rw [List.forall_mem_cons] at hvalid
    have hrest := ih hvalid.2 h.tail
    have hprint : print (t :: tokens) = t.chars ++ print tokens := List.flatMap_cons
    rw [hprint]
    cases t with
    | mark m =>
      change lexFrom .gap (m.char :: print tokens) = _
      have hmark : step .gap m.char = some ([.mark m], .gap) := begin_mark m
      rw [lexFrom_cons hmark, hrest]
      rfl
    | text raw =>
      have hreach : Reaches raw (.text raw) := hvalid.1
      change lexFrom .gap ('"' :: ((raw ++ ['"']) ++ print tokens)) = _
      have hopen : step .gap '"' = some ([], .text []) := rfl
      have hclose : step (.text raw) '"' = some ([.text raw], .gap) := by rw [step, if_pos rfl]
      rw [List.append_assoc, lexFrom_cons hopen, hreach, List.singleton_append, lexFrom_cons hclose, hrest]
      rfl
    | word spelling =>
      obtain ⟨hne, hchars⟩ : ValidWord spelling := hvalid.1
      obtain ⟨c, more, rfl⟩ := List.exists_cons_of_ne_nil hne
      rw [List.forall_mem_cons] at hchars
      change lexFrom .gap (c :: (more ++ print tokens)) = _
      have hfirst : step .gap c = some ([], .word [c]) := begin_word hchars.1
      rw [lexFrom_cons hfirst, lexFrom_word more [c] _ hchars.2, lexFrom_word_end]
      · rw [hrest]
        rfl
      · cases tokens with
        | nil => exact fun c hc => nomatch hc
        | cons t tokens =>
          apply head_print
          have happart := (List.isChain_cons_cons.mp h).1
          cases hword : t.isWord with
          | false => rfl
          | true => exact absurd ⟨rfl, hword⟩ happart

end JsonText

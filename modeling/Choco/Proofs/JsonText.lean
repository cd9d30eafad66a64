import Choco.Json.Reader
import Choco.Json.Writer
import Mathlib.Tactic.Common

namespace Choco.Json

variable {n : Nat} {j : Json}

mutual

def isPlain : Json → Bool
  | .arr items => itemsPlain items
  | .obj fields => fieldsPlain fields
  | .foreign => false
  | _ => true

def itemsPlain : List Json → Bool
  | [] => true
  | item :: items => item.isPlain && itemsPlain items

def fieldsPlain : List (String × Json) → Bool
  | [] => true
  | (_, value) :: fields => value.isPlain && fieldsPlain fields

end

mutual

def spelling : Json → List Token
  | .bool b => [.bool b]
  | .int n => [.int n]
  | .str s => [.str (some s)]
  | .arr items => .openBracket :: itemsSpelling items
  | .obj fields => .openBrace :: fieldsSpelling fields
  | _ => [.null]

def itemsSpelling : List Json → List Token
  | [] => [.closeBracket]
  | [item] => spelling item ++ [.closeBracket]
  | item :: items => spelling item ++ .comma :: itemsSpelling items

def fieldsSpelling : List (String × Json) → List Token
  | [] => [.closeBrace]
  | [(key, value)] => .str (some key) :: .colon :: (spelling value ++ [.closeBrace])
  | (key, value) :: fields => .str (some key) :: .colon :: (spelling value ++ .comma :: fieldsSpelling fields)

end

/-- The text splits into these tokens, whatever bound on their number is large enough. -/
def Lexes (text : List Char) (ts : List Token) : Prop := ∀ n, text.length ≤ n → tokensWithin n text = some ts

variable {c : Char} {rest rest' : List Char} {t : Token} {ts : List Token}

theorem Lexes.nil : Lexes [] [] := fun n _ => by cases n <;> rfl

theorem Lexes.token (hc : isBlank c = false) (hscan : scanToken c rest = some (t, rest'))
    (hlength : rest'.length ≤ rest.length) (h : Lexes rest' ts) : Lexes (c :: rest) (t :: ts) := by
  intro n hn
  obtain ⟨n, rfl⟩ : ∃ k, n = k + 1 := ⟨n - 1, by simp only [List.length_cons] at hn; omega⟩
  have hrest : tokensWithin n rest' = some ts := h n (by simp only [List.length_cons] at hn; omega)
  simp [tokensWithin, hc, hscan, hrest]

section Strings

variable {parts : List StringPart}

theorem scanString_simple {e : Char} (he : simpleEscape? e = some c)
    (h : scanString rest = some (parts, rest')) :
    scanString ('\\' :: e :: rest) = some (.char c :: parts, rest') := by
  have hu : e ≠ 'u' := by rintro rfl; cases he
  simp [scanString, hu, he, h]

theorem scanString_plain (hquote : c ≠ '"') (hslash : c ≠ '\\') (hc : ¬ c < ' ')
    (h : scanString rest = some (parts, rest')) :
    scanString (c :: rest) = some (.char c :: parts, rest') := by
  simp [scanString, hslash, hc, h]

def controlDigits (n : Nat) : List Char := ((if n < 16 then "0" else "") ++ Text.hex n).toList

theorem scan_controlDigits : ∀ n : Fin 32,
    (match controlDigits n.val with | [a, b] => hexUnit? '0' '0' a b | _ => none) = some n.val := by
  decide

theorem scanString_control (hc : c < ' ') (h : scanString rest = some (parts, rest')) :
    scanString ('\\' :: 'u' :: '0' :: '0' :: (controlDigits c.toNat ++ rest)) = some
      (.char c :: parts, rest') := by
  have hn : c.toNat < 32 := hc
  have hdigits := scan_controlDigits ⟨c.toNat, hn⟩
  split at hdigits
  next a b hab =>
    have hpart : StringPart.ofUnit c.toNat = .char c := by
      have hhigh : ¬ 0xD800 ≤ c.toNat := by omega
      have hlow : ¬ 0xDC00 ≤ c.toNat := by omega
      simp [StringPart.ofUnit, hhigh, hlow, Char.ofNat_toNat]
    simp only at hab
    simp [hab, scanString, hdigits, hpart, h]
  next => cases hdigits

theorem scanString_escapeChar (c : Char) (h : scanString rest = some (parts, rest')) :
    scanString ((escapeChar c).toList ++ rest) = some (.char c :: parts, rest') := by
  unfold escapeChar
  split
  case h_8 hquote hslash _ _ _ _ _ =>
    split
    next hc =>
      rw [String.append_assoc, String.toList_append]
      exact scanString_control hc h
    next hc => simpa using scanString_plain hquote hslash hc h
  all_goals exact scanString_simple rfl h

theorem scanString_quoted (cs : List Char) :
    scanString (cs.flatMap (fun c => (escapeChar c).toList) ++ '"' :: rest) = some (cs.map .char, rest) := by
  induction cs with
  | nil => rfl
  | cons c cs ih =>
    rw [List.flatMap_cons, List.append_assoc]
    exact scanString_escapeChar c ih

theorem assemble_chars (cs : List Char) : assemble (cs.map .char) = some cs := by
  induction cs with
  | nil => rfl
  | cons c cs ih => simp [assemble, ih]

theorem toList_quote (s : String) :
    (quote s).toList = '"' :: (s.toList.flatMap (fun c => (escapeChar c).toList) ++ ['"']) := by
  simp [quote, String.toList_join, List.flatMap_map]

theorem Lexes.quote (s : String) (h : Lexes rest ts) :
    Lexes ((quote s).toList ++ rest) (.str (some s) :: ts) := by
  rw [toList_quote, List.cons_append, List.append_assoc]
  refine .token rfl ?_ ?_ h
  · simp [scanToken, scanString_quoted, assemble_chars]
  · simp only [List.length_append, List.length_cons]
    omega

end Strings

section Numbers

def Stops : List Char → Prop
  | [] => True
  | c :: _ => c = ',' ∨ c = ']' ∨ c = '\x7d'

theorem stops_comma : Stops (',' :: rest) := .inl rfl

theorem stops_bracket : Stops (']' :: rest) := .inr (.inl rfl)

theorem stops_brace : Stops ('\x7d' :: rest) := .inr (.inr rfl)

theorem head_digitChar : ∀ n : Fin 10, 0 < n.val → [n.val.digitChar].head? ≠ some '0' := by decide

theorem head_toDigits (h : 0 < n) : (Nat.toDigits 10 n).head? ≠ some '0' := by
  induction n using Nat.strongRecOn with
  | ind n ih =>
    by_cases hn : n < 10
    · rw [Nat.toDigits_of_lt_base hn]
      exact head_digitChar ⟨n, hn⟩ h
    · have hle : 10 ≤ n := by omega
      have hdiv := ih (n / 10) (by omega) (by omega)
      rw [Nat.toDigits_of_base_le (by decide) hle]
      cases hds : Nat.toDigits 10 (n / 10) with
      | nil => exact absurd hds Nat.toDigits_ne_nil
      | cons d ds => simpa [hds] using hdiv

theorem digitsValue_toDigits (n : Nat) : digitsValue (Nat.toDigits 10 n) = n := by
  have hvalue := Nat.ofDigitChars_ten_toDigits (n := n)
  rw [Nat.ofDigitChars_eq_foldl] at hvalue
  simpa only [digitsValue, Nat.mul_comm] using hvalue

theorem scanDigits_toDigits (n : Nat) (h : Stops rest) :
    scanDigits (Nat.toDigits 10 n ++ rest) = some (Nat.toDigits 10 n, rest) := by
  have hdigit : ∀ c ∈ Nat.toDigits 10 n, c.isDigit = true :=
    fun c hc => Nat.isDigit_of_mem_toDigits (by decide) (by decide) hc
  have hstop : rest.takeWhile Char.isDigit = [] ∧ rest.dropWhile Char.isDigit = rest := by
    cases rest with
    | nil => exact ⟨rfl, rfl⟩
    | cons c rest => rcases h with rfl | rfl | rfl <;> exact ⟨rfl, rfl⟩
  unfold scanDigits
  rw [List.takeWhile_append_of_pos hdigit, List.dropWhile_append_of_pos hdigit, hstop.1, hstop.2,
    List.append_nil]
  split
  next hnil => exact absurd hnil Nat.toDigits_ne_nil
  next => rfl

theorem scanFraction_stops (h : Stops rest) : scanFraction rest = some (false, rest) := by
  cases rest with
  | nil => rfl
  | cons c rest => rcases h with rfl | rfl | rfl <;> rfl

theorem scanExponent_stops (h : Stops rest) : scanExponent rest = some (false, rest) := by
  cases rest with
  | nil => rfl
  | cons c rest => rcases h with rfl | rfl | rfl <;> rfl

theorem scanMagnitude_toDigits (negative : Bool) (n : Nat) (h : Stops rest) :
    scanMagnitude negative (Nat.toDigits 10 n ++ rest) =
      some (if negative then (if n = 0 then .real else .int (-n)) else .int n, rest) := by
  have hzero : (Nat.toDigits 10 n).head? = some '0' → (Nat.toDigits 10 n).length ≤ 1 := by
    intro hhead
    rcases Nat.eq_zero_or_pos n with rfl | hn
    · decide
    · exact absurd hhead (head_toDigits hn)
  simpa [scanMagnitude, scanDigits_toDigits n h, scanFraction_stops h, scanExponent_stops h,
    digitsValue_toDigits] using hzero

theorem scanToken_digit (hc : c.isDigit = true) : scanToken c rest = scanMagnitude false (c :: rest) := by
  unfold scanToken
  split
  all_goals first | rfl | cases hc

theorem isBlank_digit (hc : c.isDigit = true) : isBlank c = false := by
  by_contra hblank
  simp only [isBlank, Bool.or_eq_true, beq_iff_eq, Bool.not_eq_false] at hblank
  rcases hblank with ((rfl | rfl) | rfl) | rfl <;> cases hc

theorem Lexes.nat (n : Nat) (hstop : Stops rest) (h : Lexes rest ts) :
    Lexes (Nat.toDigits 10 n ++ rest) (.int n :: ts) := by
  have hscan := scanMagnitude_toDigits false n hstop
  cases hdigits : Nat.toDigits 10 n with
  | nil => exact absurd hdigits Nat.toDigits_ne_nil
  | cons d ds =>
    have hd : d.isDigit = true := Nat.isDigit_of_mem_toDigits (by decide) (by decide)
      (hdigits ▸ List.mem_cons_self)
    rw [hdigits] at hscan
    exact .token (isBlank_digit hd) ((scanToken_digit hd).trans hscan) (by simp) h

theorem Lexes.int (n : Int) (hstop : Stops rest) (h : Lexes rest ts) :
    Lexes ((toString n).toList ++ rest) (.int n :: ts) := by
  cases n with
  | ofNat m =>
    change Lexes (m.repr.toList ++ rest) _
    rw [Nat.toList_repr]
    exact .nat m hstop h
  | negSucc m =>
    change Lexes (("-" ++ (m + 1).repr).toList ++ rest) _
    rw [String.toList_append, Nat.toList_repr]
    exact .token rfl (scanMagnitude_toDigits true (m + 1) hstop) (by simp) h

end Numbers

section Values

theorem toList_compact_arr (items : List Json) :
    (compact (.arr items)).toList = '[' ::
    ([','].intercalate ((compactItems items).map String.toList) ++ [']']) := by
  simp [compact, String.toList_intercalate]

theorem toList_compact_obj (fields : List (String × Json)) :
    (compact (.obj fields)).toList =
      '\x7b' :: ([','].intercalate ((compactFields fields).map String.toList) ++ ['\x7d']) := by
  simp [compact, String.toList_intercalate]

mutual

theorem lexes_compact : (j : Json) → {rest : List Char} → {ts : List Token} → j.isPlain = true → Stops rest →
    Lexes rest ts → Lexes (j.compact.toList ++ rest) (spelling j ++ ts)
  | .null, _, _, _, _, h | .bool true, _, _, _, _, h | .bool false, _, _, _, _, h =>
    .token rfl rfl (by simp; omega) h
  | .int n, _, _, _, hstop, h => .int n hstop h
  | .str s, _, _, _, _, h => .quote s h
  | .arr items, _, _, hj, hstop, h => by
    rw [toList_compact_arr, List.cons_append, List.append_assoc]
    rw [isPlain] at hj
    rw [spelling]
    exact .token rfl rfl (Nat.le_refl _) (lexes_items items hj h)
  | .obj fields, _, _, hj, hstop, h => by
    rw [toList_compact_obj, List.cons_append, List.append_assoc]
    rw [isPlain] at hj
    rw [spelling]
    exact .token rfl rfl (Nat.le_refl _) (lexes_fields fields hj h)
  | .foreign, _, _, hj, _, _ => by simp [isPlain] at hj

theorem lexes_items : (items : List Json) → {rest : List Char} → {ts : List Token} → itemsPlain items = true →
    Lexes rest ts →
    Lexes ([','].intercalate ((compactItems items).map String.toList) ++ ([']'] ++ rest))
      (itemsSpelling items ++ ts)
  | [], _, _, _, h => by
    simp only [compactItems, itemsSpelling]
    exact .token rfl rfl (Nat.le_refl _) h
  | [item], rest, ts, hi, h => by
    simp only [itemsPlain, Bool.and_eq_true] at hi
    have hrest : Lexes (']' :: rest) (.closeBracket :: ts) := .token rfl rfl (Nat.le_refl _) h
    simpa [compactItems, itemsSpelling] using lexes_compact item hi.1 stops_bracket hrest
  | item :: next :: items, _, _, hi, h => by
    rw [itemsPlain, Bool.and_eq_true] at hi
    have hrest := Lexes.token (c := ',') rfl rfl (Nat.le_refl _) (lexes_items (next :: items) hi.2 h)
    simpa [compactItems, itemsSpelling, List.intercalate_cons_cons] using
      lexes_compact item hi.1 stops_comma hrest

theorem lexes_fields : (fields : List (String × Json)) → {rest : List Char} → {ts : List Token} →
    fieldsPlain fields = true → Lexes rest ts →
    Lexes ([','].intercalate ((compactFields fields).map String.toList) ++ (['\x7d'] ++ rest))
      (fieldsSpelling fields ++ ts)
  | [], _, _, _, h => by
    simp only [compactFields, fieldsSpelling]
    exact .token rfl rfl (Nat.le_refl _) h
  | [(key, value)], rest, ts, hf, h => by
    simp only [fieldsPlain, Bool.and_eq_true] at hf
    have hrest : Lexes ('\x7d' :: rest) (.closeBrace :: ts) := .token rfl rfl (Nat.le_refl _) h
    have hvalue := Lexes.token (c := ':') rfl rfl (Nat.le_refl _) (lexes_compact value hf.1 stops_brace hrest)
    simpa [compactFields, fieldsSpelling] using hvalue.quote key
  | (key, value) :: next :: fields, _, _, hf, h => by
    rw [fieldsPlain, Bool.and_eq_true] at hf
    have hrest := Lexes.token (c := ',') rfl rfl (Nat.le_refl _) (lexes_fields (next :: fields) hf.2 h)
    have hvalue := Lexes.token (c := ':') rfl rfl (Nat.le_refl _) (lexes_compact value hf.1 stops_comma hrest)
    simpa [compactFields, fieldsSpelling, List.intercalate_cons_cons] using hvalue.quote key

end

theorem tokens_compact (hj : j.isPlain = true) : tokens j.compact.toList = some (spelling j) := by
  have h : Lexes (j.compact.toList ++ []) (spelling j ++ []) := lexes_compact j hj trivial .nil
  rw [List.append_nil, List.append_nil] at h
  exact h _ (Nat.le_refl _)

end Values

section Grouping

variable {t : Token} {ts after : List Token}

theorem spelling_eq_cons (j : Json) : ∃ t ts, spelling j = t :: ts ∧ t ≠ .closeBracket := by
  cases j <;> simp [spelling]

theorem itemsSpelling_eq_cons (item : Json) (items : List Json) :
    ∃ t ts, itemsSpelling (item :: items) = t :: ts ∧ t ≠ .closeBracket := by
  obtain ⟨t, ts, h, ht⟩ := spelling_eq_cons item
  cases items with
  | nil => exact ⟨t, ts ++ [.closeBracket], by rw [itemsSpelling, h, List.cons_append], ht⟩
  | cons next items =>
    exact ⟨t, ts ++ .comma :: itemsSpelling (next :: items), by simp [itemsSpelling, h], ht⟩

theorem valueWithin_arr {items : List Json} (ht : t ≠ .closeBracket)
    (h : itemsWithin n (t :: ts) = some (items, after)) :
    valueWithin (n + 1) (.openBracket :: t :: ts) = some (.arr items, after) := by
  simp [valueWithin, ht, h]

theorem valueWithin_obj {fields : List (String × Json)} (ht : t ≠ .closeBrace)
    (h : fieldsWithin n (t :: ts) = some (some fields, after)) :
    valueWithin (n + 1) (.openBrace :: t :: ts) = some (.obj fields, after) := by
  simp [valueWithin, ht, h]

mutual

/-- The bound on openings is twice the number of tokens: an item takes one opening for the list it
heads and one for itself. -/
theorem valueWithin_spelling : (j : Json) → (rest : List Token) → (n : Nat) → j.isPlain = true →
    2 * (spelling j).length ≤ n → valueWithin n (spelling j ++ rest) = some (j, rest)
  | .null, rest, n + 1, _, _ | .bool b, rest, n + 1, _, _ | .int i, rest, n + 1, _, _ | .str s, rest, n + 1,
    _, _ => by
    simp [spelling, valueWithin]
  | .arr [], rest, n + 1, _, _ => by simp [spelling, itemsSpelling, valueWithin]
  | .arr (item :: items), rest, n + 1, hj, hn => by
    rw [isPlain] at hj
    rw [spelling, List.length_cons] at hn
    rw [spelling]
    have hitems := itemsWithin_spelling item items rest n hj (by omega)
    obtain ⟨t, ts, h, ht⟩ := itemsSpelling_eq_cons item items
    rw [h] at hitems ⊢
    exact valueWithin_arr ht hitems
  | .obj [], rest, n + 1, _, _ => by simp [spelling, fieldsSpelling, valueWithin]
  | .obj (field :: fields), rest, n + 1, hj, hn => by
    rw [isPlain] at hj
    rw [spelling, List.length_cons] at hn
    rw [spelling]
    have hfields := fieldsWithin_spelling field fields rest n hj (by omega)
    cases fields <;> exact valueWithin_obj (by simp) hfields
  | .foreign, _, _, hj, _ => by simp [isPlain] at hj
  | j, _, 0, _, hn => by
    obtain ⟨t, ts, h, -⟩ := spelling_eq_cons j
    simp [h] at hn

theorem itemsWithin_spelling : (item : Json) → (items : List Json) → (rest : List Token) → (n : Nat) →
    itemsPlain (item :: items) = true → 2 * (itemsSpelling (item :: items)).length ≤ n →
    itemsWithin n (itemsSpelling (item :: items) ++ rest) = some (item :: items, rest)
  | item, [], rest, n + 1, hj, hn => by
    simp only [itemsPlain, Bool.and_true] at hj
    simp only [itemsSpelling, List.length_append, List.length_singleton] at hn
    have hitem := valueWithin_spelling item (.closeBracket :: rest) n hj (by omega)
    simp [itemsSpelling, itemsWithin, hitem]
  | item, next :: items, rest, n + 1, hj, hn => by
    rw [itemsPlain, Bool.and_eq_true] at hj
    simp only [itemsSpelling, List.length_append, List.length_cons] at hn
    have hitem := valueWithin_spelling item (.comma :: (itemsSpelling (next :: items) ++ rest)) n hj.1
      (by omega)
    have hitems := itemsWithin_spelling next items rest n hj.2 (by omega)
    simp [itemsSpelling, itemsWithin, hitem, hitems]
  | item, items, _, 0, _, hn => by
    obtain ⟨t, ts, h, -⟩ := itemsSpelling_eq_cons item items
    simp [h] at hn

theorem fieldsWithin_spelling : (field : String × Json) → (fields : List (String × Json)) →
    (rest : List Token) → (n : Nat) → fieldsPlain (field :: fields) = true →
      2 * (fieldsSpelling (field :: fields)).length ≤ n →
    fieldsWithin n (fieldsSpelling (field :: fields) ++ rest) = some (some (field :: fields), rest)
  | (key, value), [], rest, n + 1, hj, hn => by
    simp only [fieldsPlain, Bool.and_true] at hj
    simp only [fieldsSpelling, List.length_append, List.length_cons, List.length_nil] at hn
    have hvalue := valueWithin_spelling value (.closeBrace :: rest) n hj (by omega)
    simp [fieldsSpelling, fieldsWithin, hvalue]
  | (key, value), next :: fields, rest, n + 1, hj, hn => by
    rw [fieldsPlain, Bool.and_eq_true] at hj
    simp only [fieldsSpelling, List.length_append, List.length_cons] at hn
    have hvalue := valueWithin_spelling value (.comma :: (fieldsSpelling (next :: fields) ++ rest)) n hj.1
      (by omega)
    have hfields := fieldsWithin_spelling next fields rest n hj.2 (by omega)
    simp [fieldsSpelling, fieldsWithin, hvalue, hfields]
  | _, fields, _, 0, _, hn => by cases fields <;> simp [fieldsSpelling] at hn

end

end Grouping

theorem parse?_compact (hj : j.isPlain = true) : parse? j.compact = some j := by
  have hvalue := valueWithin_spelling j [] (2 * (spelling j).length + 1) hj (by omega)
  rw [List.append_nil] at hvalue
  simp [parse?, tokens_compact hj, hvalue]

end Choco.Json

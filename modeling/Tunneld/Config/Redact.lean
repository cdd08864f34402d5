import Mathlib.Algebra.Group.Nat.Defs
import Mathlib.Data.List.Forall2
import Mathlib.Data.List.Infix
import Tunneld.Lib.Hex
import Tunneld.Lib.Utf8

/-!
# Keeping the secrets of a URL out of an error message

The error of a library that was given the Redis URL or the Sentry DSN may quote it, whole or in
part.  `redactURLSecrets` cuts the message at its delimiters and writes a marker in place of
everything that could come from the URL: of a token that occurs in one of the URL's forms when
letter case is ignored, and of a delimiter that occurs in one.  The forms are the URL, the URL
percent-decoded, its query decoded, and each of the three as `strconv.Quote` escapes it.

The message is cut into parts, each with the decision that was made on it (`parts`), and the
redacted message is written from the parts (`write`).  A string bounded by delimiters has parts of
its own (`parts_append`), so that what is written for a piece of the URL can be told from what is
written for the rest of the message.

Letter case beyond ASCII is `unicode`'s and left open.  A piece of the URL is kept back in any
letter case (`url_pieces_redacted`), but for one: `ſ` and `ı` have an upper case in ASCII, `S` and
`I`, that has another lower case, and in upper case a password with an `ſ` is copied
(`upper_case_copied`).
-/

namespace Tunneld.Config

open Utf8

/-! ## The forms of a URL -/

/-- The tables of `unicode` for characters beyond ASCII. -/
structure Unicode where
  /-- `unicode.ToLower`. -/
  lower : Bytes → Bytes
  /-- `unicode.ToUpper`. -/
  upper : Bytes → Bytes
  /-- `strconv.IsPrint`. -/
  isPrint : Bytes → Bool
  lower_replacement : lower replacement = replacement

section Model

variable (U : Unicode)

/-- `unicode.ToLower`. -/
def lowerRune : Bytes → Bytes
  | [a] => [asciiLower a]
  | c => U.lower c

/-- `strings.ToLower`, which puts U+FFFD for what is no character. -/
def toLower (s : Bytes) : Bytes := (runes s).flatMap fun o => lowerRune U (o.getD replacement)

def isHex (c : UInt8) : Bool := 48 ≤ c ∧ c ≤ 57 ∨ 97 ≤ c ∧ c ≤ 102 ∨ 65 ≤ c ∧ c ≤ 70

def unhex (c : UInt8) : UInt8 :=
  if 48 ≤ c ∧ c ≤ 57 then c - 48 else if 97 ≤ c ∧ c ≤ 102 then c - 97 + 10 else c - 65 + 10

def lenientUnescape (plusAsSpace : Bool) : Bytes → Bytes
  | [] => []
  | 37 :: x :: y :: s =>
    if isHex x && isHex y then (unhex x <<< 4 ||| unhex y) :: lenientUnescape plusAsSpace s
    else 37 :: lenientUnescape plusAsSpace (x :: y :: s)
  | b :: s => (if b = 43 ∧ plusAsSpace then 32 else b) :: lenientUnescape plusAsSpace s

/-- A number in so many hexadecimal digits. -/
def hexDigits (count n : Nat) : Bytes :=
  ascii ((List.range count).reverse.map fun i => Hex.digit (n / 16 ^ i % 16))

/-- The number of a character beyond ASCII. -/
def codePoint : Bytes → Nat
  | [] => 0
  | a :: l => l.foldl (fun n b => n * 64 + b.toNat % 64) (a.toNat % 2 ^ (6 - l.length))

/-- The control characters that have an escape of their own. -/
def shortEscapes : List (UInt8 × Char) :=
  [(7, 'a'), (8, 'b'), (12, 'f'), (10, 'n'), (13, 'r'), (9, 't'), (11, 'v')]

/-- `strconv.appendEscapedRune`. -/
def escapeRune : Bytes → Bytes
  | [a] =>
    if a = 34 ∨ a = 92 then [92, a]
    else if 32 ≤ a ∧ a < 127 then [a]
    else
      match shortEscapes.lookup a with
      | some e => ascii ['\\', e]
      | none => ascii ['\\', 'x'] ++ hexDigits 2 a.toNat
  | c =>
    if U.isPrint c then c
    else if codePoint c < 65536 then ascii ['\\', 'u'] ++ hexDigits 4 (codePoint c)
    else ascii ['\\', 'U'] ++ hexDigits 8 (codePoint c)

/-- What `strconv.Quote` puts between its quotes; the number is how many characters to read. -/
def quoteUpTo : Nat → Bytes → Bytes
  | 0, _ => []
  | _ + 1, [] => []
  | n + 1, a :: l =>
    match next (a :: l) with
    | some (c, r) => escapeRune U c ++ quoteUpTo n r
    | none => ascii ['\\', 'x'] ++ hexDigits 2 a.toNat ++ quoteUpTo n l

def quote (s : Bytes) : Bytes := quoteUpTo U s.length s

/-- The URL, percent-decoded, and its query decoded. -/
def decodedForms (raw : Bytes) : List Bytes :=
  [raw, lenientUnescape false raw] ++
    if raw.contains 63 then [lenientUnescape true (raw.dropWhile (· ≠ 63))] else []

/-- The forms in which an error may have a part of the URL. -/
def forms (raw : Bytes) : List Bytes := (decodedForms raw).flatMap fun src => [src, quote U src]

/-! ## The message -/

/-- The forms in lower case. -/
def sources (raw : Bytes) : List Bytes := (forms U raw).map (toLower U)

/-- `strings.Contains`. -/
def containsString (s sub : Bytes) : Bool := s.tails.any sub.isPrefixOf

def fromURL (tok : Bytes) (sources : List Bytes) : Bool :=
  tok.any (fun b => 128 ≤ b ∨ b = 92) || sources.any fun src => containsString src (toLower U tok)

/-- The characters at which a message is cut. -/
def isDelimiter (b : UInt8) : Bool := (ascii " \t\n\r\"'`:,()[]".toList).contains b

/-- A part of the message, and whether it is kept back. -/
structure Part where
  text : Bytes
  secret : Bool
  deriving DecidableEq

/-- The part a token is, if it is not empty. -/
def tokenPart (sources : List Bytes) (tok : Bytes) : List Part :=
  if tok = [] then [] else [⟨tok, fromURL U tok sources⟩]

/-- The loop over the message.  The first string is the token that has been begun. -/
def partsFrom (sources : List Bytes) : Bytes → Bytes → List Part
  | tok, [] => tokenPart U sources tok
  | tok, b :: msg =>
    if isDelimiter b then
      tokenPart U sources tok ++ ⟨[b], sources.any (·.contains b)⟩ :: partsFrom sources [] msg
    else partsFrom sources (tok ++ [b]) msg

/-- The parts of a message, with the decision on each. -/
def parts (raw msg : Bytes) : List Part := partsFrom U (sources U raw) [] msg

/-- What `emit` writes: `hidden` says that the part before was kept back. -/
def write : Bool → List Part → Bytes
  | _, [] => []
  | hidden, p :: l =>
    (if ¬ p.secret then p.text else if ¬ hidden then ascii "[redacted]".toList else []) ++
      write p.secret l

def redactURLSecrets (msg raw : Bytes) : Bytes := write false (parts U raw msg)

/-- The character `d` may stand for `c`: they are the same but for letter case, or `d` is beyond
ASCII. -/
def StandsFor (c d : Option Bytes) : Prop :=
  lowerRune U (c.getD replacement) = lowerRune U (d.getD replacement) ∨ ∀ a, d ≠ some [a]

/-- The string is a substring of one of the forms, with characters that stand for its own. -/
def IsPiece (raw p : Bytes) : Prop :=
  ∃ form ∈ forms U raw, ∃ u, u <:+: form ∧ List.Forall₂ (StandsFor U) (runes u) (runes p)

end Model

/-! ## Cutting the message -/

section Parts

variable {U : Unicode} {raw x y : Bytes} {srcs : List Bytes}

theorem partsFrom_delimiter {d : UInt8} (hd : isDelimiter d = true) (tok : Bytes) :
    partsFrom U srcs tok (x ++ d :: y) =
      partsFrom U srcs tok x ++ ⟨[d], srcs.any (·.contains d)⟩ :: partsFrom U srcs [] y := by
  induction x generalizing tok with
  | nil => exact if_pos hd
  | cons b x ih =>
    rw [List.cons_append, partsFrom, partsFrom]
    by_cases hb : isDelimiter b = true
    · rw [if_pos hb, if_pos hb, ih, List.append_assoc, List.cons_append]
    · rw [if_neg hb, if_neg hb, ih]

/-- The string starts with a delimiter, if with anything. -/
def StartsCut (x : Bytes) : Prop := x = [] ∨ ∃ d y, x = d :: y ∧ isDelimiter d = true

/-- The string ends with a delimiter, if with anything. -/
def EndsCut (x : Bytes) : Prop := x = [] ∨ ∃ y d, x = y ++ [d] ∧ isDelimiter d = true

theorem parts_nil : parts U raw [] = [] := rfl

theorem parts_append (h : EndsCut x ∨ StartsCut y) :
    parts U raw (x ++ y) = parts U raw x ++ parts U raw y := by
  rcases h with (rfl | ⟨z, d, rfl, hd⟩) | (rfl | ⟨d, z, rfl, hd⟩)
  · rfl
  · rw [List.append_assoc, List.singleton_append, parts, partsFrom_delimiter hd, parts,
      partsFrom_delimiter hd, List.append_assoc]
    rfl
  · rw [List.append_nil, parts_nil, List.append_nil]
  · rw [parts, partsFrom_delimiter hd, parts, parts, ← List.nil_append (d :: z),
      partsFrom_delimiter hd]
    rfl

/-- The parts make up the message, and each is a delimiter or a token of it. -/
theorem partsFrom_spec (tok msg : Bytes) :
    (partsFrom U srcs tok msg).flatMap Part.text = tok ++ msg ∧
    ∀ p ∈ partsFrom U srcs tok msg, p.text ≠ [] ∧ p.text <:+: tok ++ msg ∧
      ((∃ d, isDelimiter d = true ∧ p = ⟨[d], srcs.any (·.contains d)⟩) ∨
        p.secret = fromURL U p.text srcs) := by
  have htoken (tok : Bytes) : (tokenPart U srcs tok).flatMap Part.text = tok ∧
      ∀ p ∈ tokenPart U srcs tok, p.text ≠ [] ∧ p.text = tok ∧
        p.secret = fromURL U p.text srcs := by
    rw [tokenPart]
    split
    · next h => simp [h]
    · next h => simp [h]
  induction msg generalizing tok with
  | nil =>
    rw [partsFrom, List.append_nil]
    refine ⟨(htoken tok).1, fun p hp => ?_⟩
    obtain ⟨hne, htext, hsecret⟩ := (htoken tok).2 p hp
    exact ⟨hne, htext ▸ List.infix_rfl, .inr hsecret⟩
  | cons b msg ih =>
    rw [partsFrom]
    split
    · next hb =>
      rw [List.flatMap_append, (htoken tok).1, List.flatMap_cons, (ih []).1]
      refine ⟨rfl, fun p hp => ?_⟩
      rcases List.mem_append.1 hp with hp | hp
      · obtain ⟨hne, htext, hsecret⟩ := (htoken tok).2 p hp
        exact ⟨hne, htext ▸ (List.prefix_append _ _).isInfix, .inr hsecret⟩
      · rcases List.mem_cons.1 hp with rfl | hp
        · exact ⟨List.cons_ne_nil _ _, ⟨tok, msg, by simp⟩, .inl ⟨b, hb, rfl⟩⟩
        · obtain ⟨hne, hinfix, hsecret⟩ := (ih []).2 p hp
          refine ⟨hne, hinfix.trans ?_, hsecret⟩
          exact ⟨tok ++ [b], [], by simp⟩
    · have h := ih (tok ++ [b])
      rwa [List.append_assoc, List.singleton_append] at h

/-- What is kept back is not written. -/
theorem write_secret {l m : List Part} (hne : l ≠ []) (h : ∀ p ∈ l, p.secret = true)
    (hidden : Bool) : write hidden (l ++ m) =
      (if hidden then [] else ascii "[redacted]".toList) ++ write true m := by
  induction l generalizing hidden with
  | nil => exact absurd rfl hne
  | cons p l ih =>
    have hp := h p List.mem_cons_self
    rw [List.cons_append, write, hp]
    cases l with
    | nil => cases hidden <;> rfl
    | cons q l =>
      rw [ih (List.cons_ne_nil q l) fun r hr => h r (.tail _ hr)]
      cases hidden <;> rfl

theorem write_append (l m : List Part) (hidden : Bool) :
    ∃ b, write hidden (l ++ m) = write hidden l ++ write b m := by
  induction l generalizing hidden with
  | nil => exact ⟨hidden, rfl⟩
  | cons p l ih =>
    obtain ⟨b, h⟩ := ih p.secret
    exact ⟨b, by rw [List.cons_append, write, write, h, List.append_assoc]⟩

end Parts

/-! ## Letter case -/

section Lower

variable {U : Unicode} {x y t u s : Bytes}

theorem toLower_ascii (h : ∀ b ∈ t, b < 0x80) : toLower U t = t.map asciiLower := by
  have hrunes := runes_append_of_ascii (y := []) h
  rw [List.append_nil, show runes [] = [] from rfl, List.append_nil] at hrunes
  rw [toLower, hrunes, List.flatMap_map, List.map_eq_flatMap]
  rfl

/-- What ASCII stands for has its lower case. -/
theorem lower_of_standsFor {R : List (Option Bytes)}
    (h : List.Forall₂ (StandsFor U) R (t.map fun a => some [a])) :
    (R.flatMap fun o => lowerRune U (o.getD replacement)) = t.map asciiLower := by
  induction t generalizing R with
  | nil => rw [List.forall₂_nil_right_iff.1 h, List.flatMap_nil, List.map_nil]
  | cons a t ih =>
    obtain ⟨c, R', hc, hR, rfl⟩ := List.forall₂_cons_right_iff.1 h
    rw [List.flatMap_cons, ih hR, hc.resolve_right fun hne => hne a rfl]
    rfl

theorem map_asciiLower_infix (h : ∀ b ∈ t, b < 0x80) (hs : t <:+: s)
    (hu : List.Forall₂ (StandsFor U) (runes u) (runes s)) : t.map asciiLower <:+: toLower U u := by
  obtain ⟨x, y, rfl⟩ := hs
  cases t with
  | nil => exact List.nil_infix
  | cons a t =>
    have hhead : ∀ b ∈ (a :: t ++ y).head?, tail b = false := by
      rintro b ⟨⟩
      have ha := h a List.mem_cons_self
      simp only [tail, UInt8.le_iff_toNat_le, UInt8.lt_iff_toNat_lt, decide_eq_false_iff_not,
        UInt8.reduceToNat] at ha ⊢
      omega
    rw [List.append_assoc, runes_append hhead, runes_append_of_ascii h] at hu
    rw [← lower_of_standsFor
      (List.forall₂_take_append _ _ _ (List.forall₂_drop_append _ _ _ hu))]
    exact ((List.take_prefix _ _).isInfix.trans (List.drop_suffix _ _).isInfix).flatMap _

/-- A run of one kind lies in the middle if there is none of the kind on both sides. -/
theorem infix_of_infix_append {α : Type} {p : α → Prop} {w a b c : List α} (hne : w ≠ [])
    (hw : ∀ i ∈ w, p i) (ha : ∀ i ∈ a, ¬ p i) (hc : ∀ i ∈ c, ¬ p i) (h : w <:+: a ++ b ++ c) :
    w <:+: b := by
  have hleft : ∀ {v a b : List α}, v ≠ [] → (∀ i ∈ v, p i) → (∀ i ∈ a, ¬ p i) → v <:+: a ++ b →
      v <:+: b := by
    intro v a b hne hv ha h
    induction a with
    | nil => exact h
    | cons i a ih =>
      rcases List.infix_cons_iff.1 h with h | h
      · obtain ⟨j, v, rfl⟩ := List.exists_cons_of_ne_nil hne
        obtain rfl := (List.cons_prefix_cons.1 h).1
        exact absurd (hv j List.mem_cons_self) (ha j List.mem_cons_self)
      · exact ih (fun i hi => ha i (.tail _ hi)) h
  rw [List.append_assoc] at h
  have h := List.reverse_infix.2 (hleft hne hw ha h)
  rw [List.reverse_append] at h
  refine List.reverse_infix.1 (hleft (by simpa using hne) ?_ ?_ h) <;> simpa

/-- ASCII in the lower case of a substring is in that of the string: what is cut at the ends of the
substring is replaced by U+FFFD. -/
theorem toLower_infix (hne : t ≠ []) (ht : ∀ b ∈ t, b < 0x80) (hu : u <:+: s)
    (h : t <:+: toLower U u) : t <:+: toLower U s := by
  obtain ⟨R, P, Q, heq, hnone, hP⟩ := runes_infix hu
  have hbytes : ∀ O : List (Option Bytes), (∀ o ∈ O, o = none) →
      ∀ b ∈ O.flatMap fun o => lowerRune U (o.getD replacement), ¬ b < 0x80 := by
    intro O hO b hb
    obtain ⟨o, ho, hb⟩ := List.mem_flatMap.1 hb
    rw [hO o ho] at hb
    have hall : ∀ b ∈ replacement, ¬ b < 0x80 := by decide +kernel
    exact hall b (U.lower_replacement ▸ hb)
  rw [toLower, heq, List.flatMap_append, List.flatMap_append] at h
  refine (infix_of_infix_append hne ht (hbytes R fun o ho => ?_) (hbytes Q fun o ho => ?_) h).trans ?_
  · exact hnone o (List.mem_append_left _ ho)
  · exact hnone o (List.mem_append_right _ ho)
  · obtain ⟨A, B, hAB⟩ := hP
    rw [toLower, ← hAB, List.flatMap_append, List.flatMap_append]
    exact List.infix_append ..

end Lower

/-! ## Pieces of the URL -/

section Pieces

variable {U : Unicode} {raw p t : Bytes}

theorem asciiLower_delimiter {d : UInt8} (h : isDelimiter d = true) :
    d < 0x80 ∧ asciiLower d = d := by
  have hall : ∀ d ∈ ascii " \t\n\r\"'`:,()[]".toList, d < 0x80 ∧ asciiLower d = d := by
    decide +kernel
  exact hall d (List.contains_iff_mem.1 h)

/-- ASCII of a piece is in a source. -/
theorem IsPiece.source (hp : IsPiece U raw p) (ht : t <:+: p) (hne : t ≠ [])
    (hascii : ∀ b ∈ t, b < 0x80) : ∃ src ∈ sources U raw, t.map asciiLower <:+: src := by
  obtain ⟨form, hform, u, hu, hstands⟩ := hp
  refine ⟨_, List.mem_map_of_mem hform, toLower_infix (by simpa using hne) ?_ hu ?_⟩
  · intro b hb
    obtain ⟨c, hc, rfl⟩ := List.mem_map.1 hb
    exact (asciiLower_lt c).2 (hascii c hc)
  · exact map_asciiLower_infix hascii ht hstands

theorem containsString_iff {s sub : Bytes} : containsString s sub = true ↔ sub <:+: s := by
  simp only [containsString, List.any_eq_true, List.mem_tails, List.isPrefixOf_iff_prefix,
    List.infix_iff_prefix_suffix, and_comm]

/-- A token of a piece is kept back: if it is ASCII it is in a source. -/
theorem fromURL_of_piece (hp : IsPiece U raw p) (ht : t <:+: p) (hne : t ≠ []) :
    fromURL U t (sources U raw) = true := by
  rw [fromURL, Bool.or_eq_true]
  by_cases hascii : ∀ b ∈ t, b < 0x80
  · obtain ⟨src, hsrc, hinfix⟩ := hp.source ht hne hascii
    rw [← toLower_ascii hascii] at hinfix
    exact .inr (List.any_eq_true.2 ⟨src, hsrc, containsString_iff.2 hinfix⟩)
  · simp only [not_forall, UInt8.not_lt] at hascii
    obtain ⟨b, hb, hge⟩ := hascii
    exact .inl (List.any_eq_true.2 ⟨b, hb, decide_eq_true (.inl hge)⟩)

/-- Every part of a message that is in a piece is kept back. -/
theorem secret_of_piece (hp : IsPiece U raw p) {msg : Bytes} {q : Part}
    (hq : q ∈ parts U raw msg) (htext : q.text <:+: p) : q.secret = true := by
  obtain ⟨hne, -, ⟨d, hd, rfl⟩ | hsecret⟩ := (partsFrom_spec [] msg).2 q hq
  · obtain ⟨hlt, hlower⟩ := asciiLower_delimiter hd
    obtain ⟨src, hsrc, h⟩ := hp.source htext hne (by simpa using hlt)
    have hmem : d ∈ src := h.subset (by simp [hlower])
    exact List.any_eq_true.2 ⟨src, hsrc, List.contains_iff_mem.2 hmem⟩
  · rw [hsecret]
    exact fromURL_of_piece hp htext hne

/-- **What comes from the URL is kept back.**  A piece of one of the URL's forms, in any letter case
in which no ASCII letter stands for one with another lower case, leaves at most the marker in the
message if it is bounded by delimiters or the ends of the message; and no delimiter that occurs in
one of the forms is kept. -/
theorem url_pieces_redacted (U : Unicode) (raw before piece after : Bytes)
    (hpiece : IsPiece U raw piece) (hbefore : EndsCut before) (hafter : StartsCut after) :
    (∃ l, parts U raw (before ++ piece ++ after) = parts U raw before ++ l ++ parts U raw after ∧
      l.flatMap Part.text = piece ∧ (∀ p ∈ l, p.secret = true) ∧
      ∃ mark hidden, (mark = [] ∨ mark = ascii "[redacted]".toList) ∧
        redactURLSecrets U (before ++ piece ++ after) raw =
          write false (parts U raw before) ++ mark ++ write hidden (parts U raw after)) ∧
    ∀ p ∈ parts U raw (before ++ piece ++ after), ∀ d, isDelimiter d = true → p.text = [d] →
      (∃ form ∈ forms U raw, d ∈ form) → p.secret = true := by
  have hparts : parts U raw (before ++ piece ++ after) =
      parts U raw before ++ parts U raw piece ++ parts U raw after := by
    rw [parts_append (.inr hafter), parts_append (.inl hbefore)]
  have hsecret : ∀ p ∈ parts U raw piece, p.secret = true := fun p hp =>
    secret_of_piece hpiece hp ((partsFrom_spec [] piece).2 p hp).2.1
  refine ⟨⟨_, hparts, (partsFrom_spec [] piece).1, hsecret, ?_⟩, ?_⟩
  · rw [redactURLSecrets, hparts, List.append_assoc]
    obtain ⟨b, hwrite⟩ :=
      write_append (parts U raw before) (parts U raw piece ++ parts U raw after) false
    rw [hwrite]
    cases hl : parts U raw piece with
    | nil => exact ⟨[], b, .inl rfl, by rw [List.append_nil, List.nil_append]⟩
    | cons q l =>
      rw [hl] at hsecret
      refine ⟨if b then [] else ascii "[redacted]".toList, true, ?_, ?_⟩
      · cases b <;> simp
      · rw [write_secret (List.cons_ne_nil q l) hsecret, List.append_assoc]
  · rintro p hp d - htext ⟨form, hform, hmem⟩
    obtain ⟨x, y, rfl⟩ := List.append_of_mem hmem
    have hd : IsPiece U raw [d] :=
      ⟨_, hform, [d], ⟨x, y, by simp⟩, List.forall₂_same.2 fun _ _ => .inl rfl⟩
    exact secret_of_piece hd hp (htext ▸ List.infix_rfl)

/-- Tables in which `ſ` has no other lower case, and the upper case `S`. -/
def sampleUnicode : Unicode where
  lower := id
  upper c := if c = [0xC5, 0xBF] then [0x53] else c
  isPrint _ := true
  lower_replacement := rfl

/-- A URL with the password `Abµ`. -/
def sampleURL : Bytes := ascii "redis://:Ab".toList ++ [0xC2, 0xB5] ++ ascii "@h".toList

/-- The message has it as `aBΜ`. -/
theorem url_pieces_redacted_sample :
    redactURLSecrets sampleUnicode
        (ascii "port \"".toList ++ (ascii ":aB".toList ++ [0xCE, 0x9C]) ++ ascii "\"".toList)
        sampleURL = ascii "port \"[redacted]\"".toList ∧
    ∀ p ∈ parts sampleUnicode sampleURL
        (ascii "port \"".toList ++ (ascii ":aB".toList ++ [0xCE, 0x9C]) ++ ascii "\"".toList),
      ∀ d, isDelimiter d = true → p.text = [d] →
        (∃ form ∈ forms sampleUnicode sampleURL, d ∈ form) → p.secret = true := by
  refine ⟨by decide +kernel, (url_pieces_redacted _ _ _ _ _ ?_ ?_ ?_).2⟩
  · refine ⟨sampleURL, List.mem_cons_self, ascii ":Ab".toList ++ [0xC2, 0xB5], ?_, ?_⟩
    · exact ⟨ascii "redis://".toList, ascii "@h".toList, by decide +kernel⟩
    · exact .cons (.inl rfl) (.cons (.inl rfl) (.cons (.inl rfl) (.cons (.inr (by simp [width])) .nil)))
  · exact .inr ⟨ascii "port ".toList, 34, by decide, by decide⟩
  · exact .inr ⟨34, [], by decide, by decide⟩

/-- `strings.ToUpper`. -/
def toUpper (U : Unicode) (s : Bytes) : Bytes :=
  (runes s).flatMap fun o =>
    match o.getD replacement with
    | [a] => [if 97 ≤ a ∧ a ≤ 122 then a - 32 else a]
    | c => U.upper c

/-- A password with an `ſ` in it is printed in upper case. -/
theorem upper_case_copied :
    ascii "pa".toList ++ [0xC5, 0xBF] ++ ascii "s".toList <:+:
        ascii "redis://:pa".toList ++ [0xC5, 0xBF] ++ ascii "s@h".toList ∧
    toUpper sampleUnicode (ascii "pa".toList ++ [0xC5, 0xBF] ++ ascii "s".toList) =
        ascii "PASS".toList ∧
    redactURLSecrets sampleUnicode (ascii "PASS".toList)
        (ascii "redis://:pa".toList ++ [0xC5, 0xBF] ++ ascii "s@h".toList) =
      ascii "PASS".toList := by
  refine ⟨⟨ascii "redis://:".toList, ascii "@h".toList, ?_⟩, ?_, ?_⟩
  · decide +kernel
  · decide +kernel
  · decide +kernel

end Pieces

end Tunneld.Config

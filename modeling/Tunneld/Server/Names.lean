import Tunneld.Lib.Base32
import Tunneld.Lib.Checked
import Tunneld.Lib.Reader
import Tunneld.Lib.Utf8

/-!
# The names of the tunnels

A tunnel's name is drawn when its phone enrolls (`GenerateName`).  The phone's certificate has it as
its common name, and the control plane lets the phone in if it looks like a name that was drawn
(`validNameFunc`).  A client gets to the phone with the public host, the name in front of the tunnel
domain, which the edge takes apart again (`tunnelName`); but the enroll and the control host are
under the same domain, and are looked for first (`handleConn`).

These are four pieces of code that have to agree on what a name is.  They do because the settings
are made lower-case once, when the server starts (`Config.lowered`), and because the first labels of
the two hosts are refused where names are drawn: a public host that is one of them has that label
for its name (`firstLabel_host`).

Strings are bytes, and are taken for UTF-8 where they are gone through by characters.  What
`strings.ToLower` and `strings.EqualFold` do beyond ASCII is left open (`Folding`).

## Main results

* `validName_iff`: the names that pass the check;
* `names_agree`: a name that was drawn passes it and is found in its host, and nothing else passes.
-/

namespace Tunneld.Names

open Utf8 Stream Checked

/-! ## Letter case -/

/-- `strings.ToLower` and `strings.EqualFold`. -/
structure Folding where
  toLower : Bytes → Bytes
  equalFold : Bytes → Bytes → Bool
  toLower_ascii : ∀ s, (∀ b ∈ s, b < 0x80) → toLower s = s.map asciiLower
  equalFold_self : ∀ s, equalFold s s = true

/-- The strings are the same but for the case of ASCII letters. -/
def SameButCase (s t : Bytes) : Prop := s.map asciiLower = t.map asciiLower

/-! ## Characters -/

/-- `[a-z0-9-]`. -/
def isLabelByte (b : UInt8) : Bool := 97 ≤ b ∧ b ≤ 122 ∨ 48 ≤ b ∧ b ≤ 57 ∨ b = 45

/-- `[a-z2-7]`. -/
def isNameByte (b : UInt8) : Bool := 97 ≤ b ∧ b ≤ 122 ∨ 50 ≤ b ∧ b ≤ 55

/-- A loop over the characters of a string that lets only some ASCII characters pass. -/
def eachRune (p : UInt8 → Bool) (s : Bytes) : Bool :=
  (runes s).all fun r =>
    match r with
    | some [b] => p b
    | _ => false

theorem isLabelByte_iff (b : UInt8) : isLabelByte b = true ↔
    97 ≤ b.toNat ∧ b.toNat ≤ 122 ∨ 48 ≤ b.toNat ∧ b.toNat ≤ 57 ∨ b.toNat = 45 := by
  simp [isLabelByte, UInt8.le_iff_toNat_le, ← UInt8.toNat_inj]

theorem isNameByte_iff (b : UInt8) : isNameByte b = true ↔
    97 ≤ b.toNat ∧ b.toNat ≤ 122 ∨ 50 ≤ b.toNat ∧ b.toNat ≤ 55 := by
  simp [isNameByte, UInt8.le_iff_toNat_le]

theorem isLabelByte_of_isNameByte {b : UInt8} (h : isNameByte b = true) : isLabelByte b = true := by
  rw [isNameByte_iff] at h
  rw [isLabelByte_iff]
  omega

/-- Such a byte is ASCII, and none of the bytes at which a host is cut. -/
theorem lt_of_isLabelByte {b : UInt8} (h : isLabelByte b = true) :
    b < 0x80 ∧ asciiLower b = b ∧ b ≠ 46 ∧ b ≠ 58 := by
  rw [isLabelByte_iff] at h
  have hlower : ¬ (65 ≤ b ∧ b ≤ 90) := by
    simp only [UInt8.le_iff_toNat_le, UInt8.reduceToNat]
    omega
  refine ⟨UInt8.lt_iff_toNat_lt.2 ?_, if_neg hlower, fun heq => ?_, fun heq => ?_⟩
  · simp only [UInt8.reduceToNat]
    omega
  · rw [heq] at h
    simp at h
  · rw [heq] at h
    simp at h

theorem eachRune_iff {p : UInt8 → Bool} (hp : ∀ b, p b = true → b < 0x80) (s : Bytes) :
    eachRune p s = true ↔ ∀ b ∈ s, p b = true := by
  induction s using Utf8.induction with
  | nil => simp [eachRune, runes, runesUpTo]
  | char l c r hnext ih =>
    rw [eachRune] at ih ⊢
    rw [runes_of_next hnext, List.all_cons, Bool.and_eq_true, ih, (next_append hnext).1,
      List.forall_mem_append]
    refine and_congr_left fun _ => ?_
    rcases next_ascii hnext with ⟨a, -, rfl⟩ | ⟨a, b, t, ha, rfl⟩
    · simp
    · -- a character of more bytes is none of those, and its first byte is none
      simp only [Bool.false_eq_true, false_iff]
      exact fun h => ha (hp a (h a List.mem_cons_self))
  | bad a l hnext ih =>
    rw [eachRune, runes_of_none hnext, List.all_cons]
    simp only [Bool.false_and, Bool.false_eq_true, false_iff]
    intro h
    rw [next_of_ascii (hp a (h a List.mem_cons_self))] at hnext
    cases hnext

/-! ## The settings -/

/-- The settings of `serve` that names depend on. -/
structure Config where
  namePrefix : Bytes
  nameLength : Int
  tunnelDomain : Bytes
  enrollHost : Bytes
  controlHost : Bytes

/-- What `Validate` may object to. -/
inductive ValidateError
  | nameLength
  | prefixLength
  | prefixCharacters
  | prefixDash
  | addressesAndFiles
  | tunnelDomain
  | enrollHost
  | controlHost
  | sameHosts
  | other
  deriving DecidableEq

/-- `ServeCmd.Validate`.  The checks of the other settings are made in between and at the end; what
they find is given. -/
def Config.validate (F : Folding) (cfg : Config) (addressesAndFiles other : Bool) :
    Except ValidateError Unit :=
  if cfg.nameLength < 6 ∨ 32 < cfg.nameLength then .error .nameLength
  else if 63 < cfg.namePrefix.length + cfg.nameLength then .error .prefixLength
  else if ¬ eachRune isLabelByte (F.toLower cfg.namePrefix) then .error .prefixCharacters
  else if cfg.namePrefix.head? = some 45 then .error .prefixDash
  else if ¬ addressesAndFiles then .error .addressesAndFiles
  else if cfg.tunnelDomain = [] ∨ ¬ cfg.tunnelDomain.contains 46 then .error .tunnelDomain
  else if cfg.enrollHost = [] ∨ ¬ cfg.enrollHost.contains 46 then .error .enrollHost
  else if cfg.controlHost = [] ∨ ¬ cfg.controlHost.contains 46 then .error .controlHost
  else if F.equalFold cfg.enrollHost cfg.controlHost then .error .sameHosts
  else if ¬ other then .error .other
  else .ok ()

/-- What `Run` makes of the settings first of all. -/
def Config.lowered (F : Folding) (cfg : Config) : Config where
  namePrefix := F.toLower cfg.namePrefix
  nameLength := cfg.nameLength
  tunnelDomain := F.toLower cfg.tunnelDomain
  enrollHost := F.toLower cfg.enrollHost
  controlHost := F.toLower cfg.controlHost

/-- `firstLabel`: the host up to its port, and up to its first dot. -/
def firstLabel (F : Folding) (host : Bytes) : Bytes :=
  F.toLower ((host.takeWhile (· ≠ 58)).takeWhile (· ≠ 46))

/-! ## Drawing a name -/

/-- `reserved`. -/
def reserved : List Bytes :=
  [ascii ['e', 'n', 'r', 'o', 'l', 'l'], ascii ['c', 'o', 'n', 'n', 'e', 'c', 't'],
    ascii ['t', 'u', 'n', 'n', 'e', 'l'], ascii ['g', 'r', 'a', 'f', 'a', 'n', 'a'],
    ascii ['p', 'r', 'o', 'm', 'e', 't', 'h', 'e', 'u', 's'],
    ascii ['a', 'l', 'e', 'r', 't', 'm', 'a', 'n', 'a', 'g', 'e', 'r'], ascii ['n', 't', 'f', 'y'],
    ascii ['w', 'w', 'w'], ascii ['a', 'p', 'i'], ascii ['a', 'd', 'm', 'i', 'n']]

/-- `labelRe`. -/
def labelRe (s : Bytes) : Bool := 1 ≤ s.length ∧ s.length ≤ 63 ∧ s.all isLabelByte = true

/-- An attempt of `generateName`, with these random bytes. -/
def attempt (F : Folding) (namePrefix : Bytes) (length : Int) (extra : List Bytes) (buf : Bytes) :
    Option Bytes :=
  let enc := F.toLower (Base32.encode buf)
  if enc.length < length then none
  else
    let name := namePrefix ++ enc.take length.toNat
    if reserved.contains name then none
    else if extra.any (F.equalFold name) then none
    else if ¬ labelRe name then none
    else some name

/-- Why there is no name. -/
inductive GenerateError (ε : Type)
  | read (e : ReadError ε)
  | exhausted

/-- The loop of `generateName`.  The number is how many attempts are left. -/
def generateUpTo {ε : Type} (F : Folding) (namePrefix : Bytes) (length : Int) (extra : List Bytes) :
    Nat → Source UInt8 ε → Except (GenerateError ε) Bytes
  | 0, _ => .error .exhausted
  | n + 1, rnd =>
    match rnd.readFull ((length * 5 + 7) / 8).toNat with
    | (.error e, _) => .error (.read e)
    | (.ok buf, rnd) =>
      match attempt F namePrefix length extra buf with
      | some name => .ok name
      | none => generateUpTo F namePrefix length extra n rnd

/-- `generateName`. -/
def generateName {ε : Type} (F : Folding) (namePrefix : Bytes) (length : Int) (extra : List Bytes)
    (rnd : Source UInt8 ε) : Except (GenerateError ε) Bytes :=
  generateUpTo F namePrefix length extra 8 rnd

/-- `GenerateName` as the enroll service calls it. -/
def Config.generateName {ε : Type} (F : Folding) (cfg : Config) (rnd : Source UInt8 ε) :
    Except (GenerateError ε) Bytes :=
  Names.generateName F cfg.namePrefix cfg.nameLength
    [firstLabel F cfg.enrollHost, firstLabel F cfg.controlHost] rnd

/-! ## Checking a name, and finding it in a host -/

/-- `validNameFunc`. -/
def Config.validName (F : Folding) (cfg : Config) (name : Bytes) : Bool :=
  if name.length ≠ cfg.namePrefix.length + cfg.nameLength then false
  else if name.take cfg.namePrefix.length ≠ cfg.namePrefix then false
  else if name = firstLabel F cfg.enrollHost ∨ name = firstLabel F cfg.controlHost then false
  else eachRune isNameByte (name.drop cfg.namePrefix.length)

/-- `Edge.tunnelName`. -/
def Config.tunnelName (F : Folding) (cfg : Config) (sni : Bytes) : Option Bytes :=
  let sni := F.toLower sni
  if cfg.tunnelDomain = [] ∨ ¬ (46 :: cfg.tunnelDomain).isSuffixOf sni then none
  else
    let name := sni.take (sni.length - (46 :: cfg.tunnelDomain).length)
    if name = [] ∨ name.contains 46 then none else some name

/-- Where `handleConn` sends a connection. -/
inductive Target
  /-- `serveACMEChallenge`. -/
  | acmeChallenge
  | enroll
  | control
  /-- `handleTunnel`, and what it makes of the host. -/
  | tunnel (name : Option Bytes)
  deriving DecidableEq

/-- `acmeTLS1Protocol`. -/
def acmeTLS1Protocol : Bytes := ascii ['a', 'c', 'm', 'e', '-', 't', 'l', 's', '/', '1']

/-- The dispatch of `handleConn`. -/
def Config.target (F : Folding) (cfg : Config) (alpn sni : Bytes) : Target :=
  if alpn = acmeTLS1Protocol then .acmeChallenge
  else if F.toLower sni = cfg.enrollHost then .enroll
  else if F.toLower sni = cfg.controlHost then .control
  else .tunnel (cfg.tunnelName F sni)

/-! ## What a name is -/

section Agree

variable {F : Folding} {cfg : Config}

/-- The name is the start that all names have, and so many characters of base 32. -/
structure IsName (namePrefix : Bytes) (length : Int) (name : Bytes) : Prop where
  split : ∃ t, name = namePrefix ++ t ∧ (t.length : Int) = length ∧ ∀ b ∈ t, isNameByte b = true

theorem isNameByte_encode {buf : Bytes} {b : UInt8} (h : b ∈ F.toLower (Base32.encode buf)) :
    isNameByte b = true := by
  have hall : ∀ c ∈ Base32.alphabet, c < 0x80 ∧ isNameByte (asciiLower c) = true := by
    decide +kernel
  rw [F.toLower_ascii _ fun c hc => (hall c (Base32.mem_encode hc)).1] at h
  obtain ⟨c, hc, rfl⟩ := List.mem_map.1 h
  exact (hall c (Base32.mem_encode hc)).2

theorem attempt_some {namePrefix : Bytes} {length : Int} {extra : List Bytes} {buf name : Bytes}
    (hlength : 0 ≤ length) (h : attempt F namePrefix length extra buf = some name) :
    IsName namePrefix length name ∧ labelRe name = true ∧
      ∀ e ∈ extra, F.equalFold name e = false := by
  unfold attempt at h
  dsimp only at h
  split at h
  · cases h
  rename_i hlong
  split at h
  · cases h
  split at h
  · cases h
  rename_i hextra
  split at h
  · cases h
  rename_i hlabel
  rw [not_not] at hlabel
  cases h
  refine ⟨⟨_, rfl, ?_, fun b hb => isNameByte_encode (List.mem_of_mem_take hb)⟩, hlabel,
    fun e he => ?_⟩
  · rw [List.length_take]
    omega
  · rw [List.any_eq_true, not_exists] at hextra
    exact Bool.eq_false_iff.2 fun hfold => hextra e ⟨he, hfold⟩

theorem generateUpTo_ok {ε : Type} {namePrefix : Bytes} {length : Int} {extra : List Bytes} {n : Nat}
    {rnd : Source UInt8 ε} {name : Bytes}
    (h : generateUpTo F namePrefix length extra n rnd = .ok name) :
    ∃ buf, attempt F namePrefix length extra buf = some name := by
  induction n generalizing rnd with
  | zero => cases h
  | succ n ih =>
    rw [generateUpTo] at h
    split at h
    · cases h
    · split at h
      · rename_i hattempt
        cases h
        exact ⟨_, hattempt⟩
      · exact ih h

/-- What was drawn is a name, and none of the two first labels. -/
theorem generateName_ok {ε : Type} {rnd : Source UInt8 ε} {name : Bytes} (hlength : 0 ≤ cfg.nameLength)
    (h : cfg.generateName F rnd = .ok name) :
    IsName cfg.namePrefix cfg.nameLength name ∧ name ≠ [] ∧ (∀ b ∈ name, isLabelByte b = true) ∧
      name ≠ firstLabel F cfg.enrollHost ∧ name ≠ firstLabel F cfg.controlHost := by
  obtain ⟨buf, hattempt⟩ := generateUpTo_ok h
  obtain ⟨hname, hlabel, hextra⟩ := attempt_some hlength hattempt
  obtain ⟨hpos, -, hbytes⟩ := of_decide_eq_true hlabel
  have hne : ∀ e ∈ [firstLabel F cfg.enrollHost, firstLabel F cfg.controlHost], name ≠ e := by
    intro e he heq
    have hfold := hextra e he
    rw [heq, F.equalFold_self] at hfold
    cases hfold
  exact ⟨hname, List.length_pos_iff.1 hpos, List.all_eq_true.1 hbytes, hne _ List.mem_cons_self,
    hne _ (List.mem_cons_of_mem _ List.mem_cons_self)⟩

/-- The check accepts just the names that are none of the two first labels. -/
theorem validName_iff (name : Bytes) (hlength : 0 ≤ cfg.nameLength) : cfg.validName F name = true ↔
    IsName cfg.namePrefix cfg.nameLength name ∧ name ≠ firstLabel F cfg.enrollHost ∧
      name ≠ firstLabel F cfg.controlHost := by
  have hrunes := eachRune_iff (p := isNameByte)
    (fun b hb => (lt_of_isLabelByte (isLabelByte_of_isNameByte hb)).1)
  constructor
  · intro h
    unfold Config.validName at h
    split at h
    · cases h
    rename_i hlen
    split at h
    · cases h
    rename_i htake
    split at h
    · cases h
    rename_i hlabels
    rw [not_or] at hlabels
    rw [not_not] at hlen htake
    refine ⟨⟨name.drop cfg.namePrefix.length, ?_, ?_, (hrunes _).1 h⟩, hlabels⟩
    · conv_lhs => rw [← List.take_append_drop cfg.namePrefix.length name, htake]
    · rw [List.length_drop]
      omega
  · rintro ⟨⟨t, rfl, hlen, hbytes⟩, hlabels⟩
    rw [Config.validName, if_neg, if_neg, if_neg, List.drop_left]
    · exact (hrunes t).2 hbytes
    · exact not_or.2 hlabels
    · rw [List.take_left]
      exact not_not.2 rfl
    · rw [List.length_append]
      omega

/-! ## The public host -/

/-- The host of a name: the name, a dot and the domain. -/
def publicHost (name domain : Bytes) : Bytes := name ++ 46 :: domain

theorem map_asciiLower {s : Bytes} (h : ∀ b ∈ s, isLabelByte b = true) : s.map asciiLower = s := by
  have hsame : ∀ b ∈ s, asciiLower b = id b := fun b hb => (lt_of_isLabelByte (h b hb)).2.1
  rw [List.map_congr_left hsame, List.map_id]

/-- What is ASCII but for its case is lowered as ASCII. -/
theorem SameButCase.toLower {s t : Bytes} (h : SameButCase s t) (ht : ∀ b ∈ t, b < 0x80) :
    F.toLower s = t.map asciiLower := by
  rw [← h]
  refine F.toLower_ascii s fun b hb => (asciiLower_lt b).1 ?_
  have hmem : asciiLower b ∈ t.map asciiLower := by
    rw [← h]
    exact List.mem_map_of_mem hb
  obtain ⟨c, hc, heq⟩ := List.mem_map.1 hmem
  rw [← heq, asciiLower_lt]
  exact ht c hc

theorem publicHost_toLower {name domain sni : Bytes} (hname : ∀ b ∈ name, isLabelByte b = true)
    (hdomain : ∀ b ∈ domain, b < 0x80) (hsni : SameButCase sni (publicHost name domain)) :
    F.toLower sni = publicHost name (F.toLower domain) := by
  have hascii : ∀ b ∈ publicHost name domain, b < 0x80 := by
    intro b hb
    rcases List.mem_append.1 hb with hb | hb
    · exact (lt_of_isLabelByte (hname b hb)).1
    · rcases List.mem_cons.1 hb with rfl | hb
      · decide
      · exact hdomain b hb
  rw [hsni.toLower hascii, publicHost, List.map_append, map_asciiLower hname, List.map_cons,
    F.toLower_ascii domain hdomain]
  rfl

theorem publicHost_inj {name domain : Bytes} : (publicHost name domain).take
    ((publicHost name domain).length - (46 :: domain).length) = name := by
  rw [publicHost, List.length_append, Nat.add_sub_cancel, List.take_left]

/-- The first label of an ASCII host does not depend on its case. -/
theorem firstLabel_toLower {host : Bytes} (h : ∀ b ∈ host, b < 0x80) :
    firstLabel F (F.toLower host) = firstLabel F host := by
  have hcut : ∀ (s : Bytes) (c : UInt8), c.toNat < 65 →
      (s.map asciiLower).takeWhile (· ≠ c) = (s.takeWhile (· ≠ c)).map asciiLower := by
    intro s c hc
    have hsame : ((fun b => decide (b ≠ c)) ∘ asciiLower) = fun b => decide (b ≠ c) := by
      funext b
      simp only [Function.comp_apply, ne_eq, asciiLower_eq_iff hc]
    rw [List.takeWhile_map, hsame]
  have hlabel : ∀ b ∈ (host.takeWhile (· ≠ 58)).takeWhile (· ≠ 46), b < 0x80 := fun b hb =>
    h b (List.takeWhile_subset _ (List.takeWhile_subset _ hb))
  have hlower : SameButCase
      (((host.takeWhile (· ≠ 58)).takeWhile (· ≠ 46)).map asciiLower)
      ((host.takeWhile (· ≠ 58)).takeWhile (· ≠ 46)) := by
    rw [SameButCase, List.map_map]
    exact List.map_congr_left fun b _ => asciiLower_asciiLower b
  rw [firstLabel, firstLabel, F.toLower_ascii host h, hcut host 58 (by decide),
    hcut _ 46 (by decide), hlower.toLower hlabel, F.toLower_ascii _ hlabel]

/-- A host of a name has it for its first label. -/
theorem firstLabel_host {name domain : Bytes} (h : ∀ b ∈ name, isLabelByte b = true) :
    firstLabel F (publicHost name domain) = name := by
  have hport : ∀ b ∈ name, decide (b ≠ 58) = true := fun b hb =>
    decide_eq_true (lt_of_isLabelByte (h b hb)).2.2.2
  have hdot : ∀ b ∈ name, decide (b ≠ 46) = true := fun b hb =>
    decide_eq_true (lt_of_isLabelByte (h b hb)).2.2.1
  rw [firstLabel, publicHost, List.takeWhile_append_of_pos hport, List.takeWhile_cons_of_pos rfl,
    List.takeWhile_append_of_pos hdot, List.takeWhile_cons_of_neg (by decide), List.append_nil,
    F.toLower_ascii name fun b hb => (lt_of_isLabelByte (h b hb)).1, map_asciiLower h]

/-- The edge finds the name in its host. -/
theorem tunnelName_host {name sni : Bytes} (hname : ∀ b ∈ name, isLabelByte b = true)
    (hne : name ≠ []) (hdomain : cfg.tunnelDomain ≠ [])
    (hsni : F.toLower sni = publicHost name cfg.tunnelDomain) :
    cfg.tunnelName F sni = some name := by
  have hsuffix : (46 :: cfg.tunnelDomain).isSuffixOf (publicHost name cfg.tunnelDomain) = true :=
    List.isSuffixOf_iff_suffix.2 (List.suffix_append _ _)
  have hdot : name.contains 46 = false := by
    rw [Bool.eq_false_iff, ne_eq, List.contains_iff_mem]
    exact fun hmem => (lt_of_isLabelByte (hname 46 hmem)).2.2.1 rfl
  rw [Config.tunnelName]
  dsimp only
  rw [hsni, publicHost_inj, if_neg, if_neg]
  · rw [hdot]
    exact not_or.2 ⟨hne, Bool.false_ne_true⟩
  · rw [hsuffix]
    exact not_or.2 ⟨hdomain, not_not.2 rfl⟩

/-- What `Validate` has found of the names. -/
theorem validate_ok {addressesAndFiles other : Bool}
    (h : cfg.validate F addressesAndFiles other = .ok ()) :
    0 ≤ cfg.nameLength ∧ (∀ b ∈ F.toLower cfg.namePrefix, isLabelByte b = true) ∧
      cfg.tunnelDomain ≠ [] := by
  unfold Config.validate at h
  obtain ⟨hlength, h⟩ := ok_of_check h
  obtain ⟨-, h⟩ := ok_of_check h
  obtain ⟨hchars, h⟩ := ok_of_check h
  obtain ⟨-, h⟩ := ok_of_check h
  obtain ⟨-, h⟩ := ok_of_check h
  obtain ⟨hdomain, -⟩ := ok_of_check h
  rw [not_not, eachRune_iff fun b hb => (lt_of_isLabelByte hb).1] at hchars
  exact ⟨by omega, hchars, (not_or.1 hdomain).1⟩

/-- **Names agree.**  A name that was drawn passes the check of the control plane, the edge finds it
in its host, whatever the case of the host's letters, and sends the host to the tunnel; and a name
that passes the check is one that might have been drawn. -/
theorem names_agree (F : Folding) (cfg : Config) (addressesAndFiles other : Bool)
    (hvalid : cfg.validate F addressesAndFiles other = .ok ())
    (hdomain : ∀ b ∈ cfg.tunnelDomain, b < 0x80) (henroll : ∀ b ∈ cfg.enrollHost, b < 0x80)
    (hcontrol : ∀ b ∈ cfg.controlHost, b < 0x80) :
    (∀ (ε : Type) (rnd : Source UInt8 ε) (name : Bytes),
      (cfg.lowered F).generateName F rnd = .ok name →
      (cfg.lowered F).validName F name = true ∧
      ∀ sni, SameButCase sni (publicHost name cfg.tunnelDomain) →
        (cfg.lowered F).tunnelName F sni = some name ∧
        F.toLower sni ≠ (cfg.lowered F).enrollHost ∧
        F.toLower sni ≠ (cfg.lowered F).controlHost ∧
        ∀ alpn, alpn ≠ acmeTLS1Protocol →
          (cfg.lowered F).target F alpn sni = .tunnel (some name)) ∧
    ∀ name, (cfg.lowered F).validName F name = true →
      IsName (F.toLower cfg.namePrefix) cfg.nameLength name ∧
        name ≠ firstLabel F cfg.enrollHost ∧ name ≠ firstLabel F cfg.controlHost := by
  obtain ⟨hlength, hchars, hne⟩ := validate_ok hvalid
  have hlength : 0 ≤ (cfg.lowered F).nameLength := hlength
  refine ⟨fun ε rnd name hdrawn => ?_, fun name hok => ?_⟩
  · obtain ⟨hname, hnonempty, hbytes, hnotEnroll, hnotControl⟩ := generateName_ok hlength hdrawn
    refine ⟨(validName_iff name hlength).2 ⟨hname, hnotEnroll, hnotControl⟩, fun sni hsni => ?_⟩
    have hlower : F.toLower sni = publicHost name (cfg.lowered F).tunnelDomain :=
      publicHost_toLower hbytes hdomain hsni
    have hnotNil : (cfg.lowered F).tunnelDomain ≠ [] := by
      show F.toLower cfg.tunnelDomain ≠ []
      rw [F.toLower_ascii _ hdomain]
      exact fun h => hne (List.map_eq_nil_iff.1 h)
    have hfound := tunnelName_host (F := F) hbytes hnonempty hnotNil hlower
    have hfirst : firstLabel F (F.toLower sni) = name := by
      rw [hlower, firstLabel_host hbytes]
    have henrollNe : F.toLower sni ≠ (cfg.lowered F).enrollHost := fun heq =>
      hnotEnroll (by rw [← heq, hfirst])
    have hcontrolNe : F.toLower sni ≠ (cfg.lowered F).controlHost := fun heq =>
      hnotControl (by rw [← heq, hfirst])
    refine ⟨hfound, henrollNe, hcontrolNe, fun alpn halpn => ?_⟩
    rw [Config.target, if_neg halpn, if_neg henrollNe, if_neg hcontrolNe, hfound]
  · obtain ⟨hname, hnotEnroll, hnotControl⟩ := (validName_iff name hlength).1 hok
    rw [Config.lowered] at hnotEnroll hnotControl
    rw [firstLabel_toLower henroll] at hnotEnroll
    rw [firstLabel_toLower hcontrol] at hnotControl
    exact ⟨hname, hnotEnroll, hnotControl⟩

/-- Only the case of ASCII letters is folded. -/
def asciiFolding : Folding where
  toLower s := s.map asciiLower
  equalFold s t := s.map asciiLower == t.map asciiLower
  toLower_ascii _ _ := rfl
  equalFold_self _ := BEq.rfl

/-- Names of eight characters under `X.y`, with `e.X.y` and `c.X.y` reserved. -/
def sampleConfig : Config where
  namePrefix := ascii ['T', '-']
  nameLength := 6
  tunnelDomain := ascii ['X', '.', 'y']
  enrollHost := ascii ['e', '.', 'X', '.', 'y']
  controlHost := ascii ['c', '.', 'X', '.', 'y']

theorem names_agree_sample :
    (sampleConfig.lowered asciiFolding).generateName (ε := Unit) asciiFolding
        ⟨[[0, 1], [2, 3]], .eof, false⟩ = .ok (ascii ['t', '-', 'a', 'a', 'a', 'q', 'e', 'a']) ∧
      (sampleConfig.lowered asciiFolding).validName asciiFolding
        (ascii ['t', '-', 'a', 'a', 'a', 'q', 'e', 'a']) = true ∧
      (sampleConfig.lowered asciiFolding).target asciiFolding []
          (ascii ['T', '-', 'a', 'A', 'a', 'q', 'E', 'a', '.', 'x', '.', 'Y']) =
        .tunnel (some (ascii ['t', '-', 'a', 'a', 'a', 'q', 'e', 'a'])) := by
  have hdrawn : (sampleConfig.lowered asciiFolding).generateName (ε := Unit) asciiFolding
      ⟨[[0, 1], [2, 3]], .eof, false⟩ = .ok (ascii ['t', '-', 'a', 'a', 'a', 'q', 'e', 'a']) := by
    set_option maxRecDepth 2048 in rfl
  obtain ⟨hok, hhost⟩ := (names_agree asciiFolding sampleConfig true true rfl (by decide +kernel)
    (by decide +kernel) (by decide +kernel)).1 Unit _ _ hdrawn
  obtain ⟨-, -, -, htarget⟩ :=
    hhost (ascii ['T', '-', 'a', 'A', 'a', 'q', 'E', 'a', '.', 'x', '.', 'Y']) rfl
  exact ⟨hdrawn, hok, htarget [] (by decide)⟩

end Agree

end Tunneld.Names

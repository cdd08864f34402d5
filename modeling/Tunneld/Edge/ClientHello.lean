import Tunneld.Lib.Checked
import Tunneld.Lib.Hex
import Tunneld.Lib.Strings
import Tunneld.Lib.Timestamp

/-!
# Parsing a ClientHello

The edge reads the first TLS record of a public connection and takes from it what it routes by: the
server name, the first application protocol, the version, and a fingerprint.  `parseClientHello`
walks nested lists with length prefixes, all of them bytes that the client chose.  Every access to a
slice is one of `Checked`, so that an access out of range would be a result of its own, and
`parseClientHello_inRange` says that there is none.

The ciphers and the extensions are sorted before they are hashed.  The hash is a parameter.
-/

namespace Tunneld.Edge.Hello

open Checked

abbrev Bytes := List UInt8

/-- Text, in ASCII characters. -/
abbrev Text := List Char

/-- The results of the parser; `Fault.bad` is `errBadClientHello`. -/
abbrev Parse (α : Type) := Except (Fault Unit) α

def errBadClientHello {α : Type} : Parse α := .error (.bad ())

/-- `isGREASE`. -/
def isGREASE (v : UInt16) : Bool := v &&& 0x0f0f == 0x0a0a && v >>> 8 == v &&& 0xff

/-- The codes that are not GREASE. -/
def nonGREASE (vs : List UInt16) : List UInt16 := vs.filter fun v => !isGREASE v

/-- `sha256.Sum256`. -/
structure Sha where
  sum : Text → Bytes
  length_sum : ∀ t, (sum t).length = 32

/-- `ClientHelloInfo`. -/
structure Info where
  sni : Bytes
  alpn : Bytes
  tlsVersion : Text
  ja4 : Text
  deriving DecidableEq

/-! ## Lists of codes -/

/-- The codes from the index `i` on, for as long as `more` says. -/
def words (b : Bytes) (more : Nat → Bool) : Nat → Nat → Parse (List UInt16)
  | 0, _ => .ok []
  | fuel + 1, i =>
    if more i then do
      let v ← word b i
      let vs ← words b more fuel (i + 2)
      return UInt16.ofNat v :: vs
    else .ok []

/-- `parseUint16List`. -/
def parseUint16List (data : Bytes) : Parse (List UInt16) :=
  if data.length < 2 then .ok []
  else do
    let l ← word data 0
    let body ← sliceFrom data 2
    if body.length < l then .ok [] else words body (fun i => i + 1 < l) l 0

/-- The larger of the largest version so far and the next one. -/
def larger (maxv v : UInt16) : UInt16 := if maxv < v then v else maxv

/-- `parseSupportedVersionsMax`. -/
def parseSupportedVersionsMax (data : Bytes) : Parse UInt16 :=
  if data.length < 1 then .ok 0
  else do
    let l ← get data 0
    let body ← sliceFrom data 1
    if body.length < l.toNat then .ok 0
    else do
      let vs ← words body (fun i => i + 1 < l.toNat) l.toNat 0
      return (nonGREASE vs).foldl larger 0

/-! ## Names -/

/-- The loop of `parseSNI`. -/
def sniLoop : Nat → Bytes → Parse Bytes
  | 0, _ => .ok []
  | fuel + 1, list =>
    if list.length < 3 then .ok []
    else do
      let nlen ← word list 1
      let typ ← get list 0
      if typ = 0 ∧ 3 + nlen ≤ list.length then slice list 3 (3 + nlen)
      else if list.length < 3 + nlen then .ok []
      else do
        let list ← sliceFrom list (3 + nlen)
        sniLoop fuel list

/-- `parseSNI`; every turn of its loop takes at least three bytes. -/
def parseSNI (data : Bytes) : Parse Bytes :=
  if data.length < 2 then .ok []
  else do
    let list ← sliceFrom data 2
    sniLoop list.length list

/-- `parseFirstALPN`. -/
def parseFirstALPN (data : Bytes) : Parse Bytes :=
  if data.length < 3 then .ok []
  else do
    let list ← sliceFrom data 2
    if list.length < 1 then .ok []
    else do
      let l ← get list 0
      if list.length < 1 + l.toNat then .ok [] else slice list 1 (1 + l.toNat)

/-! ## The fingerprint -/

/-- `%04x`. -/
def hex4 (v : UInt16) : Text := Hex.encode (BigEndian.bytes 2 v.toNat)

/-- `pickVersion`. -/
def pickVersion (legacy supported : UInt16) : UInt16 := if supported ≠ 0 then supported else legacy

/-- `versionString`. -/
def versionString (v : UInt16) : Text :=
  if v = 0x0304 then ['1', '.', '3']
  else if v = 0x0303 then ['1', '.', '2']
  else if v = 0x0302 then ['1', '.', '1']
  else if v = 0x0301 then ['1', '.', '0']
  else '0' :: 'x' :: hex4 v

/-- `isAlnum`. -/
def isAlnum (b : UInt8) : Bool :=
  48 ≤ b && b ≤ 57 || 65 ≤ b && b ≤ 90 || 97 ≤ b && b ≤ 122

/-- `sha12`. -/
def sha12 (sha : Sha) (s : Text) : Parse Text :=
  if s = [] then .ok (List.replicate 12 '0') else sliceTo (Hex.encode (sha.sum s)) 12

/-- The version in the fingerprint. -/
def ja4Version (tlsVersion : Text) : Text :=
  if tlsVersion = ['1', '.', '2'] then ['1', '2']
  else if tlsVersion = ['1', '.', '1'] then ['1', '1']
  else if tlsVersion = ['1', '.', '0'] then ['1', '0']
  else ['1', '3']

/-- The protocol in the fingerprint: its first and last character, or those of its hexadecimal
form. -/
def ja4ALPN (alpn : Bytes) : Parse Text :=
  if alpn = [] then .ok ['0', '0']
  else do
    let first ← get alpn 0
    let last ← get alpn (alpn.length - 1)
    if isAlnum first && isAlnum last then return [Char.ofNat first.toNat, Char.ofNat last.toNat]
    else do
      let h := Hex.encode alpn
      let first ← get h 0
      let last ← get h (h.length - 1)
      return [first, last]

/-- `sortedHex`. -/
def sortedHex (vs : List UInt16) : List Text := Strings.sortStrings (vs.map hex4)

/-- What is hashed of the extensions: the sorted identifiers but for the server name and the
protocols, and the signature algorithms in their order. -/
def ja4Extensions (extIDs sigAlgs : List UInt16) : Text :=
  let filtered := extIDs.filter fun e => !(e == 0x0000 || e == 0x0010)
  let extPart := Strings.join [','] (sortedHex filtered)
  if sigAlgs ≠ [] then extPart ++ '_' :: Strings.join [','] (sigAlgs.map hex4) else extPart

/-- `computeJA4`; the server name and the protocols count as extensions. -/
def computeJA4 (sha : Sha) (sni alpn : Bytes) (tlsVersion : Text)
    (ciphers extIDs sigAlgs : List UInt16) : Parse Text := do
  let sniFlag := if sni ≠ [] then 'd' else 'i'
  let alpn ← ja4ALPN alpn
  let a := 't' :: ja4Version tlsVersion ++ sniFlag :: Timestamp.digits 2 (min ciphers.length 99) ++
    Timestamp.digits 2 (min extIDs.length 99) ++ alpn
  let b ← sha12 sha (Strings.join [','] (sortedHex ciphers))
  let c ← sha12 sha (ja4Extensions extIDs sigAlgs)
  return a ++ '_' :: b ++ '_' :: c

/-! ## The record -/

/-- A list with its length in one byte, skipped: the session id, and the compression methods. -/
def skipShort (b : Bytes) : Parse Bytes :=
  if b.length < 1 then errBadClientHello
  else do
    let n ← get b 0
    let b ← sliceFrom b 1
    if b.length < n.toNat then errBadClientHello else sliceFrom b n.toNat

/-- The cipher suites without the GREASE ones, and what is behind them. -/
def takeCiphers (b : Bytes) : Parse (List UInt16 × Bytes) :=
  if b.length < 2 then errBadClientHello
  else do
    let csLen ← word b 0
    let b ← sliceFrom b 2
    if b.length < csLen ∨ csLen % 2 ≠ 0 then errBadClientHello
    else do
      let vs ← words b (fun i => i < csLen) csLen 0
      let b ← sliceFrom b csLen
      return (nonGREASE vs, b)

/-- What the loop over the extensions has found. -/
@[ext] structure Seen where
  sni : Bytes
  alpn : Bytes
  extIDs : List UInt16
  sigAlgs : List UInt16
  supportedVerMax : UInt16

def Seen.empty : Seen := ⟨[], [], [], [], 0⟩

/-- The identifier of an extension is kept unless it is a GREASE one. -/
def Seen.addID (seen : Seen) (etype : UInt16) : Seen :=
  { seen with extIDs := if isGREASE etype then seen.extIDs else seen.extIDs ++ [etype] }

/-- One extension. -/
def Seen.add (seen : Seen) (etype : UInt16) (data : Bytes) : Parse Seen :=
  let seen := seen.addID etype
  if etype = 0x0000 then do
    let sni ← parseSNI data
    return { seen with sni := sni }
  else if etype = 0x0010 then do
    let alpn ← parseFirstALPN data
    return { seen with alpn := alpn }
  else if etype = 0x000d then do
    let sigAlgs ← parseUint16List data
    return { seen with sigAlgs := sigAlgs }
  else if etype = 0x002b then do
    let v ← parseSupportedVersionsMax data
    return { seen with supportedVerMax := v }
  else .ok seen

/-- The loop over the extensions, which stops at one that is cut short. -/
def extLoop : Nat → Bytes → Seen → Parse Seen
  | 0, _, seen => .ok seen
  | fuel + 1, ext, seen =>
    if ext.length < 4 then .ok seen
    else do
      let etype ← word ext 0
      let elen ← word ext 2
      let ext ← sliceFrom ext 4
      if ext.length < elen then .ok seen
      else do
        let data ← sliceTo ext elen
        let ext ← sliceFrom ext elen
        let seen ← seen.add (UInt16.ofNat etype) data
        extLoop fuel ext seen

/-- The extensions; there may be none at all. -/
def parseExtensions (b : Bytes) : Parse Seen :=
  if 2 ≤ b.length then do
    let extTotal ← word b 0
    let b ← sliceFrom b 2
    if b.length < extTotal then errBadClientHello
    else do
      let ext ← sliceTo b extTotal
      extLoop ext.length ext .empty
  else .ok .empty

/-- The end of `parseClientHello`. -/
def infoOf (sha : Sha) (legacyVer : UInt16) (ciphers : List UInt16) (seen : Seen) : Parse Info := do
  let tlsVersion := versionString (pickVersion legacyVer seen.supportedVerMax)
  let ja4 ← computeJA4 sha seen.sni seen.alpn tlsVersion ciphers seen.extIDs seen.sigAlgs
  return ⟨seen.sni, seen.alpn, tlsVersion, ja4⟩

/-- The body of a ClientHello. -/
def parseBody (sha : Sha) (b : Bytes) : Parse Info :=
  if b.length < 34 then errBadClientHello
  else do
    let legacyVer ← word b 0
    let b ← sliceFrom b 34
    let b ← skipShort b
    let (ciphers, b) ← takeCiphers b
    let b ← skipShort b
    let seen ← parseExtensions b
    infoOf sha (UInt16.ofNat legacyVer) ciphers seen

/-- `parseClientHello`. -/
def parseClientHello (sha : Sha) (record : Bytes) : Parse Info :=
  if record.length < 5 then errBadClientHello
  else do
    let typ ← get record 0
    if typ ≠ 0x16 then errBadClientHello
    else do
      let hs ← sliceFrom record 5
      if hs.length < 4 then errBadClientHello
      else do
        let typ ← get hs 0
        if typ ≠ 0x01 then errBadClientHello
        else do
          let b ← sliceFrom hs 4
          parseBody sha b

/-! ## No access is out of range -/

theorem words_ok (b : Bytes) (more : Nat → Bool) {i : Nat} (hi : i % 2 = 0)
    (h : ∀ i, i % 2 = 0 → more i = true → i + 1 < b.length) (fuel : Nat) :
    ∃ vs, words b more fuel i = .ok vs := by
  induction fuel generalizing i with
  | zero => exact ⟨_, rfl⟩
  | succ fuel ih =>
    rw [words]
    split
    · rename_i hmore
      obtain ⟨vs, hvs⟩ := ih (i := i + 2) (by omega)
      rw [word_eq (h i hi hmore), ok_bind, hvs]
      exact ⟨_, rfl⟩
    · exact ⟨_, rfl⟩

theorem parseUint16List_ok (data : Bytes) : ∃ vs, parseUint16List data = .ok vs := by
  rw [parseUint16List]
  split
  · exact ⟨_, rfl⟩
  · rename_i hlen
    rw [word_eq (by omega), ok_bind, sliceFrom_eq (by omega), ok_bind]
    split
    · exact ⟨_, rfl⟩
    · refine words_ok _ _ rfl (fun i _ hi => ?_) _
      rw [decide_eq_true_eq] at hi
      omega

theorem parseSupportedVersionsMax_inRange (data : Bytes) :
    InRange (parseSupportedVersionsMax data) := by
  rw [parseSupportedVersionsMax]
  split
  · exact .ok _
  · rename_i hlen
    rw [get_eq (by omega), ok_bind, sliceFrom_eq (by omega), ok_bind]
    generalize data[0].toNat = l
    split
    · exact .ok _
    · obtain ⟨vs, hvs⟩ := words_ok (data.drop 1) (fun i => i + 1 < l) (i := 0) rfl
        (fun i _ hi => by rw [decide_eq_true_eq] at hi; omega) l
      rw [hvs]
      exact .ok _

theorem sniLoop_inRange (fuel : Nat) (list : Bytes) : InRange (sniLoop fuel list) := by
  induction fuel generalizing list with
  | zero => exact .ok _
  | succ fuel ih =>
    rw [sniLoop]
    split
    · exact .ok _
    · rename_i hlen
      rw [word_eq (by omega), ok_bind, get_eq (by omega), ok_bind]
      split
      · rename_i h
        rw [slice_eq (by omega) h.2]
        exact .ok _
      · split
        · exact .ok _
        · rename_i h
          rw [sliceFrom_eq (by omega), ok_bind]
          exact ih _

theorem parseSNI_inRange (data : Bytes) : InRange (parseSNI data) := by
  rw [parseSNI]
  split
  · exact .ok _
  · rw [sliceFrom_eq (by omega), ok_bind]
    exact sniLoop_inRange _ _

theorem parseFirstALPN_inRange (data : Bytes) : InRange (parseFirstALPN data) := by
  rw [parseFirstALPN]
  split
  · exact .ok _
  · rw [sliceFrom_eq (by omega), ok_bind]
    split
    · exact .ok _
    · rw [get_eq (by omega), ok_bind]
      split
      · exact .ok _
      · rw [slice_eq (by omega) (by omega)]
        exact .ok _

theorem sha12_ok (sha : Sha) (s : Text) : ∃ t, sha12 sha s = .ok t := by
  rw [sha12]
  split
  · exact ⟨_, rfl⟩
  · rw [sliceTo_eq (by rw [Hex.length_encode, sha.length_sum]; omega)]
    exact ⟨_, rfl⟩

theorem ja4ALPN_ok (alpn : Bytes) : ∃ t, ja4ALPN alpn = .ok t := by
  rw [ja4ALPN]
  split
  · exact ⟨_, rfl⟩
  · rename_i hne
    have hpos : 0 < alpn.length := List.length_pos_iff.2 hne
    rw [get_eq hpos, ok_bind, get_eq (by omega), ok_bind]
    split
    · exact ⟨_, rfl⟩
    · have hlen := Hex.length_encode alpn
      dsimp only
      rw [get_eq (by omega), ok_bind, get_eq (by omega), ok_bind]
      exact ⟨_, rfl⟩

theorem computeJA4_ok (sha : Sha) (sni alpn : Bytes) (tlsVersion : Text)
    (ciphers extIDs sigAlgs : List UInt16) :
    ∃ t, computeJA4 sha sni alpn tlsVersion ciphers extIDs sigAlgs = .ok t := by
  obtain ⟨p, hp⟩ := ja4ALPN_ok alpn
  obtain ⟨b, hb⟩ := sha12_ok sha (Strings.join [','] (sortedHex ciphers))
  obtain ⟨c, hc⟩ := sha12_ok sha (ja4Extensions extIDs sigAlgs)
  rw [computeJA4, hp, ok_bind, hb, ok_bind, hc]
  exact ⟨_, rfl⟩

/-- The end of the parser always has a result. -/
theorem infoOf_ok (sha : Sha) (legacyVer : UInt16) (ciphers : List UInt16) (seen : Seen) :
    ∃ ja4, infoOf sha legacyVer ciphers seen = .ok ⟨seen.sni, seen.alpn,
      versionString (pickVersion legacyVer seen.supportedVerMax), ja4⟩ := by
  obtain ⟨ja4, h⟩ := computeJA4_ok sha seen.sni seen.alpn
    (versionString (pickVersion legacyVer seen.supportedVerMax)) ciphers seen.extIDs seen.sigAlgs
  exact ⟨ja4, by rw [infoOf, h]; rfl⟩

theorem skipShort_inRange (b : Bytes) : InRange (skipShort b) := by
  rw [skipShort]
  split
  · exact .bad _
  · rw [get_eq (by omega), ok_bind, sliceFrom_eq (by omega), ok_bind]
    split
    · exact .bad _
    · rw [sliceFrom_eq (by omega)]
      exact .ok _

theorem takeCiphers_inRange (b : Bytes) : InRange (takeCiphers b) := by
  rw [takeCiphers]
  split
  · exact .bad _
  · rw [word_eq (by omega), ok_bind, sliceFrom_eq (by omega), ok_bind]
    generalize b[0].toNat * 256 + b[0 + 1].toNat = csLen
    split
    · exact .bad _
    · -- The length is even, so that an even index below it is not the last one.
      obtain ⟨vs, hvs⟩ := words_ok (b.drop 2) (fun i => i < csLen) (i := 0) rfl
        (fun i heven hi => by rw [decide_eq_true_eq] at hi; omega) csLen
      rw [hvs, ok_bind, sliceFrom_eq (by omega)]
      exact .ok _

theorem Seen.add_inRange (seen : Seen) (etype : UInt16) (data : Bytes) :
    InRange (seen.add etype data) := by
  rw [add]
  split
  · exact (parseSNI_inRange data).bind fun _ _ => .ok _
  · split
    · exact (parseFirstALPN_inRange data).bind fun _ _ => .ok _
    · split
      · obtain ⟨vs, hvs⟩ := parseUint16List_ok data
        rw [hvs]
        exact .ok _
      · split
        · exact (parseSupportedVersionsMax_inRange data).bind fun _ _ => .ok _
        · exact .ok _

theorem extLoop_inRange (fuel : Nat) (ext : Bytes) (seen : Seen) :
    InRange (extLoop fuel ext seen) := by
  induction fuel generalizing ext seen with
  | zero => exact .ok _
  | succ fuel ih =>
    rw [extLoop]
    split
    · exact .ok _
    · rw [word_eq (by omega), ok_bind, word_eq (by omega), ok_bind, sliceFrom_eq (by omega), ok_bind]
      split
      · exact .ok _
      · rw [sliceTo_eq (by omega), ok_bind, sliceFrom_eq (by omega), ok_bind]
        exact (Seen.add_inRange _ _ _).bind fun _ _ => ih _ _

theorem parseExtensions_inRange (b : Bytes) : InRange (parseExtensions b) := by
  rw [parseExtensions]
  split
  · rw [word_eq (by omega), ok_bind, sliceFrom_eq (by omega), ok_bind]
    split
    · exact .bad _
    · rw [sliceTo_eq (by omega), ok_bind]
      exact extLoop_inRange _ _ _
  · exact .ok _

theorem parseBody_inRange (sha : Sha) (b : Bytes) : InRange (parseBody sha b) := by
  rw [parseBody]
  split
  · exact .bad _
  · rw [word_eq (by omega), ok_bind, sliceFrom_eq (by omega), ok_bind]
    refine (skipShort_inRange _).bind fun _ _ => (takeCiphers_inRange _).bind fun _ _ => ?_
    refine (skipShort_inRange _).bind fun _ _ => (parseExtensions_inRange _).bind fun _ _ => ?_
    obtain ⟨ja4, h⟩ := infoOf_ok sha _ _ _
    rw [h]
    exact .ok _

/-- No access of the parser is out of range, whatever the client sent. -/
theorem parseClientHello_inRange (sha : Sha) (record : Bytes) :
    InRange (parseClientHello sha record) := by
  rw [parseClientHello]
  split
  · exact .bad _
  · rw [get_eq (by omega), ok_bind]
    split
    · exact .bad _
    · rw [sliceFrom_eq (by omega), ok_bind]
      split
      · exact .bad _
      · rw [get_eq (by omega), ok_bind]
        split
        · exact .bad _
        · rw [sliceFrom_eq (by omega), ok_bind]
          exact parseBody_inRange sha _

end Tunneld.Edge.Hello

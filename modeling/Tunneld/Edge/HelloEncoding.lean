import Tunneld.Edge.ClientHello

/-!
# What a ClientHello says

`ClientHello` is what a client puts into its first message, and `encode` writes it as one record.
The contents of the server name, of the protocols and of the supported versions are lists, as the
standard has them; any other extension is a type and bytes.  `WellFormed` says that every length
fits the field that it is written in.

The parser gives back what the message says (`parse_encode`), for each field in turn: what
the encoding of a field, followed by anything, is parsed as.  The loops go over the fields that are
left; what a loop has found is a fold over the extensions (`extLoop_encode`).

## Main results

* `parseClientHello_exact`: the parser is safe for all bytes, and exact for well-formed messages;
* `zero_version_ignored`: a message for which "the largest version" is not what it gives.
-/

namespace Tunneld.Edge.Hello

open Checked

/-! ## Messages -/

/-- An extension. -/
inductive Extension
  /-- Names, each with its type; type zero is a host name. -/
  | serverName (names : List (UInt8 × Bytes))
  | alpn (protocols : List Bytes)
  | supportedVersions (versions : List UInt16)
  | other (etype : UInt16) (data : Bytes)
  deriving DecidableEq

/-- A code in two bytes. -/
def code (v : UInt16) : Bytes := BigEndian.bytes 2 v.toNat

/-- Codes, one behind the other. -/
def codes (vs : List UInt16) : Bytes := (vs.map code).flatten

/-- A list with its length in `k` bytes. -/
def sized (k : Nat) (l : Bytes) : Bytes := BigEndian.bytes k l.length ++ l

namespace Extension

def etype : Extension → UInt16
  | serverName _ => 0x0000
  | alpn _ => 0x0010
  | supportedVersions _ => 0x002b
  | other t _ => t

def data : Extension → Bytes
  | serverName names => sized 2 (names.map fun n => n.1 :: sized 2 n.2).flatten
  | alpn protocols => sized 2 (protocols.map (sized 1)).flatten
  | supportedVersions versions => sized 1 (codes versions)
  | other _ data => data

def encode (e : Extension) : Bytes := code e.etype ++ sized 2 e.data

/-- The lengths fit, and no other extension has one of the three types. -/
def WellFormed (e : Extension) : Prop :=
  e.data.length < 65536 ∧
    match e with
    | serverName names => ∀ n ∈ names, n.2.length < 65536
    | alpn protocols => ∀ p ∈ protocols, p.length < 256
    | supportedVersions versions => 2 * versions.length < 256
    | other t _ => t ≠ 0x0000 ∧ t ≠ 0x0010 ∧ t ≠ 0x002b

instance : DecidablePred WellFormed := fun e => by
  unfold WellFormed; split <;> infer_instance

end Extension

/-- What a client says in its first message. -/
structure ClientHello where
  recordVersion : UInt16
  legacyVersion : UInt16
  random : Bytes
  sessionID : Bytes
  ciphers : List UInt16
  compression : Bytes
  /-- The extensions; an old client may send no list at all. -/
  extensions : Option (List Extension)
  deriving DecidableEq

namespace ClientHello

variable (h : ClientHello)

def exts : List Extension := h.extensions.getD []

/-- The list of the extensions. -/
def extensionBytes : Bytes :=
  match h.extensions with
  | none => []
  | some es => sized 2 (es.map Extension.encode).flatten

def body : Bytes :=
  code h.legacyVersion ++ h.random ++ sized 1 h.sessionID ++ sized 2 (codes h.ciphers) ++
    sized 1 h.compression ++ h.extensionBytes

/-- The message, in one record. -/
def encode : Bytes :=
  0x16 :: code h.recordVersion ++ sized 2 (0x01 :: sized 3 h.body)

structure WellFormed : Prop where
  random : h.random.length = 32
  sessionID : h.sessionID.length < 256
  ciphers : 2 * h.ciphers.length < 65536
  compression : h.compression.length < 256
  each : ∀ e ∈ h.exts, e.WellFormed
  extensions : (h.exts.map Extension.encode).flatten.length < 65536
  record : h.body.length + 4 < 65536

/-- No two extensions are of one type; GREASE types may be repeated. -/
def Distinct : Prop := (nonGREASE (h.exts.map Extension.etype)).Nodup

instance : Decidable h.Distinct := inferInstanceAs (Decidable (List.Nodup _))

end ClientHello

/-! ## Codes and lengths -/

@[simp] theorem length_code (v : UInt16) : (code v).length = 2 := BigEndian.length_bytes _ _

@[simp] theorem codes_cons (v : UInt16) (vs : List UInt16) : codes (v :: vs) = code v ++ codes vs :=
  rfl

@[simp] theorem length_codes (vs : List UInt16) : (codes vs).length = 2 * vs.length := by
  induction vs with
  | nil => rfl
  | cons v vs ih =>
    rw [codes_cons, List.length_append, length_code, ih, List.length_cons]
    omega

@[simp] theorem length_sized (k : Nat) (l : Bytes) : (sized k l).length = k + l.length := by
  simp [sized]

/-! ## Lists with their lengths -/

theorem skipShort_sized {l : Bytes} (hl : l.length < 256) (rest : Bytes) :
    skipShort (sized 1 l ++ rest) = .ok rest := by
  have hsized : sized 1 l ++ rest = UInt8.ofNat l.length :: (l ++ rest) := by
    simp [sized, BigEndian.bytes]
  have hn : (UInt8.ofNat l.length).toNat = l.length := by
    rw [UInt8.toNat_ofNat']
    omega
  rw [hsized, skipShort, if_neg (by simp), get_zero, ok_bind, sliceFrom_eq (by simp), ok_bind,
    List.drop_one, List.tail_cons, hn, if_neg (by simp)]
  exact sliceFrom_append l

variable {vs : List UInt16} {fuel : Nat}

/-- The loop reads the codes that `more` says there are. -/
theorem words_codes (pre : Bytes) {rest : Bytes} {more : Nat → Bool}
    (hmore : ∀ k, more (pre.length + 2 * k) = decide (k < vs.length)) (hf : vs.length ≤ fuel) :
    words (pre ++ (codes vs ++ rest)) more fuel pre.length = .ok vs := by
  induction vs generalizing pre fuel with
  | nil =>
    cases fuel with
    | zero => rfl
    | succ fuel => simp [words, show more pre.length = false by simpa using hmore 0]
  | cons v vs ih =>
    obtain ⟨fuel, rfl⟩ : ∃ k, fuel = k + 1 := ⟨fuel - 1, by simp at hf; omega⟩
    have hnow : more pre.length = true := by simpa using hmore 0
    have hword : (word (pre ++ (codes (v :: vs) ++ rest)) pre.length : Parse Nat) =
        .ok v.toNat := by
      rw [codes_cons, List.append_assoc, ← Nat.add_zero pre.length, word_append]
      exact word_bytes v.toNat_lt _
    have hrest : words (pre ++ (codes (v :: vs) ++ rest)) more fuel (pre.length + 2) = .ok vs := by
      have h := ih (pre ++ code v) (fun k => ?_) (by simpa using hf : vs.length ≤ fuel)
      · rwa [List.length_append, length_code, List.append_assoc, ← List.append_assoc (code v),
          ← codes_cons] at h
      · have hk := hmore (k + 1)
        rw [List.length_append, length_code]
        rw [show pre.length + 2 + 2 * k = pre.length + 2 * (k + 1) by omega, hk]
        simp
    rw [words, if_pos hnow, hword, ok_bind, hrest, ok_bind, UInt16.ofNat_toNat]
    rfl

theorem words_codes_zero {rest : Bytes} {more : Nat → Bool}
    (hmore : ∀ k, more (2 * k) = decide (k < vs.length)) (hf : vs.length ≤ fuel) :
    words (codes vs ++ rest) more fuel 0 = .ok vs :=
  words_codes [] (fun k => by simpa using hmore k) hf

theorem sliceFrom_sized (k : Nat) (l rest : Bytes) :
    (sliceFrom (sized k l ++ rest) k : Parse Bytes) = .ok (l ++ rest) := by
  have h := sliceFrom_append (ε := Unit) (b := l ++ rest) (BigEndian.bytes k l.length)
  rwa [BigEndian.length_bytes, ← List.append_assoc] at h

theorem word_sized {l : Bytes} (hl : l.length < 65536) (rest : Bytes) :
    (word (sized 2 l ++ rest) 0 : Parse Nat) = .ok l.length := by
  rw [sized, List.append_assoc]
  exact word_bytes hl _

theorem takeCiphers_sized (hvs : 2 * vs.length < 65536) (rest : Bytes) :
    takeCiphers (sized 2 (codes vs) ++ rest) = .ok (nonGREASE vs, rest) := by
  have hlen : ¬ (sized 2 (codes vs) ++ rest).length < 2 := by
    rw [List.length_append, length_sized]
    omega
  have hbad : ¬ ((codes vs ++ rest).length < (codes vs).length ∨ (codes vs).length % 2 ≠ 0) := by
    simp
  have hwords : words (codes vs ++ rest) (fun i => i < (codes vs).length) (codes vs).length 0 =
      .ok vs :=
    words_codes_zero (fun k => by simp) (by rw [length_codes]; omega)
  rw [takeCiphers, if_neg hlen, word_sized (by simpa using hvs), ok_bind, sliceFrom_sized, ok_bind,
    if_neg hbad, hwords, ok_bind, sliceFrom_append]
  rfl

/-! ## The contents of the extensions -/

/-- The first host name of a list. -/
def firstHost (names : List (UInt8 × Bytes)) : Bytes :=
  ((names.find? fun n => n.1 == 0).map Prod.snd).getD []

/-- The largest of the versions that are not GREASE, or zero. -/
def maxVersion (versions : List UInt16) : UInt16 :=
  (nonGREASE versions).foldl larger 0

theorem sniLoop_names {names : List (UInt8 × Bytes)} (hlen : ∀ n ∈ names, n.2.length < 65536)
    (hf : names.length ≤ fuel) :
    sniLoop fuel (names.map fun n => n.1 :: sized 2 n.2).flatten = .ok (firstHost names) := by
  induction names generalizing fuel with
  | nil => cases fuel <;> rfl
  | cons n names ih =>
    obtain ⟨fuel, rfl⟩ : ∃ k, fuel = k + 1 := ⟨fuel - 1, by simp at hf; omega⟩
    obtain ⟨t, name⟩ := n
    obtain ⟨hname, hnames⟩ := List.forall_mem_cons.1 hlen
    generalize hrest : (names.map fun n => n.1 :: sized 2 n.2).flatten = rest
    have hlist : (((t, name) :: names).map fun n => n.1 :: sized 2 n.2).flatten =
        (t :: BigEndian.bytes 2 name.length) ++ (name ++ rest) := by
      rw [List.map_cons, List.flatten_cons, hrest, sized, List.cons_append, List.append_assoc]
      rfl
    have hlong : ((t :: BigEndian.bytes 2 name.length) ++ (name ++ rest)).length =
        3 + name.length + rest.length := by
      simp
      omega
    have hword : (word ((t :: BigEndian.bytes 2 name.length) ++ (name ++ rest)) 1 : Parse Nat) =
        .ok name.length := by
      have h := word_append (ε := Unit) (i := 0) [t]
        (b := BigEndian.bytes 2 name.length ++ (name ++ rest))
      exact h.trans (word_bytes hname _)
    have hthree : (t :: BigEndian.bytes 2 name.length).length = 3 := by simp
    rw [hlist, sniLoop, if_neg (by omega), hword, ok_bind, List.cons_append, get_zero, ok_bind,
      ← List.cons_append]
    by_cases ht : t = 0
    · have hslice := slice_append (ε := Unit) (b := rest) (t :: BigEndian.bytes 2 name.length) name
      rw [hthree] at hslice
      rw [if_pos ⟨ht, by omega⟩, hslice]
      simp [firstHost, ht]
    · have hfrom := sliceFrom_append (ε := Unit) (b := rest)
        ((t :: BigEndian.bytes 2 name.length) ++ name)
      rw [List.length_append, hthree, List.append_assoc] at hfrom
      have hfirst : firstHost ((t, name) :: names) = firstHost names := by simp [firstHost, ht]
      rw [if_neg (fun h => ht h.1), if_neg (by omega), hfrom, ok_bind, hfirst, ← hrest]
      exact ih hnames (by simpa using hf)

/-- Every entry has at least a byte, so that the loops do not run out of turns. -/
theorem length_le_flatten {α : Type} {f : α → Bytes} (hf : ∀ a, 0 < (f a).length) (l : List α) :
    l.length ≤ (l.map f).flatten.length := by
  induction l with
  | nil => exact Nat.le_refl 0
  | cons a l ih =>
    have := hf a
    rw [List.map_cons, List.flatten_cons, List.length_append, List.length_cons]
    omega

theorem parseSNI_names {names : List (UInt8 × Bytes)} (hlen : ∀ n ∈ names, n.2.length < 65536) :
    parseSNI (Extension.serverName names).data = .ok (firstHost names) := by
  have hshort : ¬ (Extension.serverName names).data.length < 2 := by
    rw [Extension.data, length_sized]
    omega
  have hfrom := sliceFrom_sized 2 (names.map fun n => n.1 :: sized 2 n.2).flatten []
  rw [List.append_nil, List.append_nil] at hfrom
  rw [parseSNI, if_neg hshort, Extension.data, hfrom, ok_bind]
  exact sniLoop_names hlen (length_le_flatten (fun n => by simp) names)

theorem parseFirstALPN_protocols {protocols : List Bytes} (hlen : ∀ p ∈ protocols, p.length < 256) :
    parseFirstALPN (Extension.alpn protocols).data = .ok (protocols.headD []) := by
  cases protocols with
  | nil => rfl
  | cons p ps =>
    have hp : p.length < 256 := hlen p List.mem_cons_self
    have hn : (UInt8.ofNat p.length).toNat = p.length := by
      rw [UInt8.toNat_ofNat']
      omega
    generalize hrest : (ps.map (sized 1)).flatten = rest
    have hlist : ((p :: ps).map (sized 1)).flatten = UInt8.ofNat p.length :: (p ++ rest) := by
      rw [List.map_cons, List.flatten_cons, hrest, sized]
      simp [BigEndian.bytes]
    have hfrom := sliceFrom_sized 2 (UInt8.ofNat p.length :: (p ++ rest)) []
    rw [List.append_nil, List.append_nil] at hfrom
    have hslice := slice_append (ε := Unit) (b := rest) [UInt8.ofNat p.length] p
    rw [parseFirstALPN, Extension.data, hlist, if_neg (by simp; omega), hfrom, ok_bind,
      if_neg (by simp), get_zero, ok_bind, hn, if_neg (by simp; omega)]
    exact hslice

theorem parseSupportedVersionsMax_versions (hlen : 2 * vs.length < 256) :
    parseSupportedVersionsMax (Extension.supportedVersions vs).data = .ok (maxVersion vs) := by
  have hn : (UInt8.ofNat (2 * vs.length)).toNat = 2 * vs.length := by
    rw [UInt8.toNat_ofNat']
    omega
  have hdata : (Extension.supportedVersions vs).data = UInt8.ofNat (2 * vs.length) :: codes vs := by
    simp [Extension.data, sized, BigEndian.bytes]
  have hwords : words (codes vs) (fun i => i + 1 < 2 * vs.length) (2 * vs.length) 0 = .ok vs := by
    have h : words (codes vs ++ []) (fun i => i + 1 < 2 * vs.length) (2 * vs.length) 0 = .ok vs :=
      words_codes_zero (fun k => decide_eq_decide.2 (by omega)) (by omega)
    rwa [List.append_nil] at h
  rw [hdata, parseSupportedVersionsMax, if_neg (by simp), get_zero, ok_bind,
    sliceFrom_eq (by simp), ok_bind, List.drop_one, List.tail_cons, hn, if_neg (by simp), hwords]
  rfl

/-! ## The extensions -/

/-- The signature algorithms in an extension. -/
def sigAlgsOf (data : Bytes) : List UInt16 :=
  match parseUint16List data with
  | .ok vs => vs
  | .error _ => []

namespace Extension

/-- The names of a server name extension. -/
def names? : Extension → Option (List (UInt8 × Bytes))
  | serverName names => some names
  | _ => none

def protocols? : Extension → Option (List Bytes)
  | alpn protocols => some protocols
  | _ => none

def versions? : Extension → Option (List UInt16)
  | supportedVersions versions => some versions
  | _ => none

/-- The data of the signature algorithms. -/
def sigAlgs? : Extension → Option Bytes
  | other t data => if t = 0x000d then some data else none
  | _ => none

end Extension

/-- What was found, after one more extension. -/
def Seen.see (seen : Seen) (e : Extension) : Seen where
  sni := (e.names?.map firstHost).getD seen.sni
  alpn := (e.protocols?.map (·.headD [])).getD seen.alpn
  extIDs := (seen.addID e.etype).extIDs
  sigAlgs := (e.sigAlgs?.map sigAlgsOf).getD seen.sigAlgs
  supportedVerMax := (e.versions?.map maxVersion).getD seen.supportedVerMax

theorem Seen.add_eq_see (seen : Seen) {e : Extension} (he : e.WellFormed) :
    seen.add e.etype e.data = .ok (seen.see e) := by
  obtain ⟨-, he⟩ := he
  cases e with
  | serverName names =>
    change seen.add 0x0000 (Extension.serverName names).data = _
    rw [add, if_pos rfl, parseSNI_names he]
    rfl
  | alpn protocols =>
    change seen.add 0x0010 (Extension.alpn protocols).data = _
    rw [add, if_neg (by decide), if_pos rfl, parseFirstALPN_protocols he]
    rfl
  | supportedVersions versions =>
    change seen.add 0x002b (Extension.supportedVersions versions).data = _
    rw [add, if_neg (by decide), if_neg (by decide), if_neg (by decide), if_pos rfl,
      parseSupportedVersionsMax_versions he]
    rfl
  | other t data =>
    obtain ⟨hsni, halpn, hver⟩ := he
    obtain ⟨vs, hvs⟩ := parseUint16List_ok data
    have hsig : sigAlgsOf data = vs := by rw [sigAlgsOf, hvs]
    rw [add, Extension.etype, Extension.data, if_neg hsni, if_neg halpn, hvs, if_neg hver]
    by_cases ht : t = 0x000d
    · subst ht
      rw [if_pos rfl, ok_bind, ← hsig]
      rfl
    · have hnone : (Extension.other t data).sigAlgs? = none := if_neg ht
      rw [if_neg ht, see, hnone]
      rfl

/-- **The loop over the extensions.**  It sees every extension of the list, in order. -/
theorem extLoop_encode {es : List Extension} (hwf : ∀ e ∈ es, e.WellFormed) (hf : es.length ≤ fuel)
    (seen : Seen) :
    extLoop fuel (es.map Extension.encode).flatten seen = .ok (es.foldl Seen.see seen) := by
  induction es generalizing fuel seen with
  | nil => cases fuel <;> rfl
  | cons e es ih =>
    obtain ⟨fuel, rfl⟩ : ∃ k, fuel = k + 1 := ⟨fuel - 1, by simp at hf; omega⟩
    obtain ⟨he, hes⟩ := List.forall_mem_cons.1 hwf
    generalize hrest : (es.map Extension.encode).flatten = rest
    have hext : ((e :: es).map Extension.encode).flatten =
        code e.etype ++ (sized 2 e.data ++ rest) := by
      rw [List.map_cons, List.flatten_cons, hrest, Extension.encode, List.append_assoc]
    have hlong : ¬ (code e.etype ++ (sized 2 e.data ++ rest)).length < 4 := by
      simp
      omega
    have htype : (word (code e.etype ++ (sized 2 e.data ++ rest)) 0 : Parse Nat) =
        .ok e.etype.toNat := word_bytes e.etype.toNat_lt _
    have hlen : (word (code e.etype ++ (sized 2 e.data ++ rest)) 2 : Parse Nat) =
        .ok e.data.length := by
      have h := word_append (ε := Unit) (i := 0) (code e.etype) (b := sized 2 e.data ++ rest)
      exact h.trans (word_sized he.1 rest)
    have hfrom : (sliceFrom (code e.etype ++ (sized 2 e.data ++ rest)) 4 : Parse Bytes) =
        .ok (e.data ++ rest) := by
      have h := sliceFrom_append (ε := Unit) (b := e.data ++ rest)
        (code e.etype ++ BigEndian.bytes 2 e.data.length)
      rw [sized, List.append_assoc, ← List.append_assoc]
      exact h
    rw [hext, extLoop, if_neg hlong, htype, ok_bind, hlen, ok_bind, hfrom, ok_bind,
      if_neg (by simp), sliceTo_append, ok_bind, sliceFrom_append, ok_bind, UInt16.ofNat_toNat,
      seen.add_eq_see he, ok_bind, ← hrest]
    exact ih hes (by simpa using hf) _

theorem Extension.length_encode_pos (e : Extension) : 0 < e.encode.length := by
  rw [encode, List.length_append, length_code]
  omega

namespace ClientHello

variable {h : ClientHello} {sha : Sha}

theorem parseExtensions_bytes (hwf : h.WellFormed) :
    parseExtensions h.extensionBytes = .ok (h.exts.foldl Seen.see .empty) := by
  have heach := hwf.each
  have hlen := hwf.extensions
  rw [extensionBytes, exts] at *
  cases hes : h.extensions with
  | none => rfl
  | some es =>
    rw [hes, Option.getD_some] at heach hlen
    have hfrom := sliceFrom_sized 2 (es.map Extension.encode).flatten []
    have hto := sliceTo_append (ε := Unit) (b := []) (es.map Extension.encode).flatten
    have hword := word_sized hlen []
    rw [List.append_nil] at hto hword hfrom
    rw [List.append_nil] at hfrom
    dsimp only [Option.getD_some]
    rw [parseExtensions, if_pos (by simp), hword, ok_bind, hfrom, ok_bind, if_neg (by simp), hto,
      ok_bind]
    exact extLoop_encode heach (length_le_flatten Extension.length_encode_pos es) .empty

theorem parseBody_body (hwf : h.WellFormed) :
    parseBody sha h.body = infoOf sha h.legacyVersion (nonGREASE h.ciphers)
      (h.exts.foldl Seen.see .empty) := by
  generalize hrest : sized 1 h.sessionID ++ (sized 2 (codes h.ciphers) ++
    (sized 1 h.compression ++ h.extensionBytes)) = rest
  have hbody : h.body = (code h.legacyVersion ++ h.random) ++ rest := by
    rw [← hrest, body]
    simp only [List.append_assoc]
  have hlong : (code h.legacyVersion ++ h.random).length = 34 := by
    rw [List.length_append, length_code, hwf.random]
  have hword : (word ((code h.legacyVersion ++ h.random) ++ rest) 0 : Parse Nat) =
      .ok h.legacyVersion.toNat := by
    rw [List.append_assoc]
    exact word_bytes h.legacyVersion.toNat_lt _
  have hfrom := sliceFrom_append (ε := Unit) (b := rest) (code h.legacyVersion ++ h.random)
  rw [hlong] at hfrom
  rw [parseBody, hbody, if_neg (by rw [List.length_append, hlong]; omega), hword, ok_bind, hfrom,
    ok_bind, ← hrest, skipShort_sized hwf.sessionID, ok_bind, takeCiphers_sized hwf.ciphers, ok_bind]
  dsimp only
  rw [skipShort_sized hwf.compression, ok_bind, parseExtensions_bytes hwf, ok_bind,
    UInt16.ofNat_toNat]

/-- What a message is parsed as. -/
theorem parse_encode (hwf : h.WellFormed) :
    parseClientHello sha h.encode = infoOf sha h.legacyVersion
      (nonGREASE h.ciphers) (h.exts.foldl Seen.see .empty) := by
  rw [← parseBody_body hwf]
  have hencode : h.encode = (0x16 :: (code h.recordVersion ++
      BigEndian.bytes 2 (0x01 :: sized 3 h.body).length)) ++ ((0x01 :: BigEndian.bytes 3 h.body.length)
        ++ h.body) := by
    simp only [encode, sized, List.cons_append, List.append_assoc]
  have hfrom := sliceFrom_append (ε := Unit)
    (b := (0x01 :: BigEndian.bytes 3 h.body.length) ++ h.body)
    (0x16 :: (code h.recordVersion ++ BigEndian.bytes 2 (0x01 :: sized 3 h.body).length))
  have hfrom' := sliceFrom_append (ε := Unit) (b := h.body) (0x01 :: BigEndian.bytes 3 h.body.length)
  have hfive : (0x16 :: (code h.recordVersion ++
      BigEndian.bytes 2 (0x01 :: sized 3 h.body).length)).length = 5 := by simp
  have hfour : (0x01 :: BigEndian.bytes 3 h.body.length).length = 4 := by simp
  rw [hfive] at hfrom
  rw [hfour] at hfrom'
  rw [hencode, parseClientHello, if_neg (by rw [List.length_append, hfive]; omega), List.cons_append,
    get_zero, ok_bind, if_neg (by simp), ← List.cons_append, hfrom, ok_bind,
    if_neg (by rw [List.length_append, hfour]; omega), List.cons_append, get_zero, ok_bind,
    if_neg (by simp), ← List.cons_append, hfrom']
  rfl

end ClientHello

/-! ## What the message says -/

namespace ClientHello

variable (h : ClientHello)

/-- The first host name of the server name list. -/
def hostName : Bytes := firstHost ((h.exts.findSome? Extension.names?).getD [])

/-- The first protocol. -/
def protocol : Bytes := ((h.exts.findSome? Extension.protocols?).getD []).headD []

/-- The supported versions. -/
def versions : List UInt16 := (h.exts.findSome? Extension.versions?).getD []

/-- The largest of the supported versions that are neither GREASE nor zero, or, if there is none,
the legacy version. -/
def Version (v : UInt16) : Prop :=
  (v ∈ h.versions ∧ isGREASE v = false ∧ v ≠ 0 ∧
      ∀ w ∈ h.versions, isGREASE w = false → w ≤ v) ∨
    (∀ w ∈ h.versions, isGREASE w = false → w = 0) ∧ v = h.legacyVersion

end ClientHello

/-- A loop that writes a value where an element has one ends with the last of them. -/
theorem foldl_last {σ α β : Type} {f : σ → α → σ} {field : σ → β} {o : α → Option β}
    (hf : ∀ s a, field (f s a) = (o a).getD (field s)) (l : List α) (s : σ) :
    field (l.foldl f s) = (l.filterMap o).getLast?.getD (field s) := by
  induction l using List.reverseRecOn with
  | nil => rfl
  | append_singleton l a ih =>
    rw [List.foldl_append, List.foldl_cons, List.foldl_nil, hf, ih, List.filterMap_append,
      List.filterMap_cons]
    cases o a <;> simp

/-- At most one extension is of a type that is not GREASE. -/
theorem length_filterMap_le {es : List Extension}
    (hd : (nonGREASE (es.map Extension.etype)).Nodup) {β : Type}
    {o : Extension → Option β} {t : UInt16} (ht : isGREASE t = false)
    (ho : ∀ e, (o e).isSome = true → e.etype = t) : (es.filterMap o).length ≤ 1 := by
  induction es with
  | nil => exact Nat.zero_le 1
  | cons e es ih =>
    rw [List.map_cons, nonGREASE, List.filter_cons] at hd
    cases he : o e with
    | none =>
      rw [List.filterMap_cons_none he]
      refine ih ?_
      split at hd
      · exact (List.nodup_cons.1 hd).2
      · exact hd
    | some b =>
      -- The type is taken, so that no extension behind it has anything.
      have hty : e.etype = t := ho e (by simp [he])
      rw [hty, if_pos (by simp [ht]), List.nodup_cons] at hd
      have hnone : es.filterMap o = [] := by
        refine List.filterMap_eq_nil_iff.2 fun e' he' => ?_
        by_contra hne
        have hty' := ho e' (Option.isSome_iff_ne_none.2 hne)
        exact hd.1 (List.mem_filter.2 ⟨hty' ▸ List.mem_map_of_mem he', by simp [ht]⟩)
      rw [List.filterMap_cons_some he, hnone]
      exact Nat.le_refl 1

namespace ClientHello

variable {h : ClientHello}

/-- The last extension of a type is the first one. -/
theorem getLast?_filterMap (hd : h.Distinct) {β : Type} {o : Extension → Option β} {t : UInt16}
    (ht : isGREASE t = false) (ho : ∀ e, (o e).isSome = true → e.etype = t) :
    (h.exts.filterMap o).getLast? = h.exts.findSome? o := by
  have hle := length_filterMap_le hd ht ho
  rw [← List.head?_filterMap]
  rcases hl : h.exts.filterMap o with _ | ⟨b, _ | ⟨c, l⟩⟩
  · rfl
  · rfl
  · rw [hl] at hle
    simp at hle

variable {e : Extension}

theorem etype_of_names (he : e.names?.isSome = true) : e.etype = 0x0000 := by
  cases e <;> first | rfl | cases he

theorem etype_of_protocols (he : e.protocols?.isSome = true) : e.etype = 0x0010 := by
  cases e <;> first | rfl | cases he

theorem etype_of_versions (he : e.versions?.isSome = true) : e.etype = 0x002b := by
  cases e <;> first | rfl | cases he

theorem etype_of_sigAlgs (he : e.sigAlgs?.isSome = true) : e.etype = 0x000d := by
  cases e with
  | other t data =>
    rw [Extension.sigAlgs?] at he
    split at he
    · assumption
    · cases he
  | serverName => cases he
  | alpn => cases he
  | supportedVersions => cases he

/-- A field that an extension can write is, at the end of the loop, the value of the extension. -/
theorem foldl_field {β γ : Type} (hd : h.Distinct) (field : Seen → γ) {o : Extension → Option β}
    (g : β → γ) {t : UInt16} (hsee : ∀ seen e, field (seen.see e) = ((o e).map g).getD (field seen))
    (ht : isGREASE t = false) (ho : ∀ e, (o e).isSome = true → e.etype = t) :
    field (h.exts.foldl Seen.see .empty) =
      ((h.exts.findSome? o).map g).getD (field .empty) := by
  rw [foldl_last hsee, ← getLast?_filterMap hd ht ho, ← List.getLast?_map, List.map_filterMap]

theorem foldl_extIDs (es : List Extension) (seen : Seen) :
    (es.foldl Seen.see seen).extIDs = seen.extIDs ++ nonGREASE (es.map Extension.etype) := by
  induction es generalizing seen with
  | nil => exact (List.append_nil _).symm
  | cons e es ih =>
    rw [List.foldl_cons, ih, List.map_cons, nonGREASE, nonGREASE, List.filter_cons]
    by_cases hg : isGREASE e.etype = true
    · simp [Seen.see, Seen.addID, hg]
    · simp [Seen.see, Seen.addID, hg]

/-- What the loop over the extensions has found at its end. -/
theorem foldl_see (hd : h.Distinct) :
    h.exts.foldl Seen.see .empty =
      ⟨h.hostName, h.protocol, nonGREASE (h.exts.map Extension.etype),
        ((h.exts.findSome? Extension.sigAlgs?).map sigAlgsOf).getD [], maxVersion h.versions⟩ := by
  refine Seen.ext ?_ ?_ (foldl_extIDs h.exts .empty) ?_ ?_
  · rw [foldl_field hd Seen.sni firstHost (fun _ _ => rfl) (by decide) fun _ => etype_of_names,
      hostName]
    cases h.exts.findSome? Extension.names? <;> rfl
  · rw [foldl_field hd Seen.alpn (·.headD []) (fun _ _ => rfl) (by decide)
      fun _ => etype_of_protocols, protocol]
    cases h.exts.findSome? Extension.protocols? <;> rfl
  · exact foldl_field hd Seen.sigAlgs sigAlgsOf (fun _ _ => rfl) (by decide)
      fun _ => etype_of_sigAlgs
  · rw [foldl_field hd Seen.supportedVerMax maxVersion (fun _ _ => rfl) (by decide)
      fun _ => etype_of_versions, versions]
    cases h.exts.findSome? Extension.versions? <;> rfl

end ClientHello

/-! ## The largest version -/

theorem foldl_larger (l : List UInt16) (m : UInt16) :
    m ≤ l.foldl larger m ∧ (∀ v ∈ l, v ≤ l.foldl larger m) ∧
      (l.foldl larger m = m ∨ l.foldl larger m ∈ l) := by
  induction l generalizing m with
  | nil => exact ⟨UInt16.le_refl m, by simp, .inl rfl⟩
  | cons v l ih =>
    obtain ⟨hm, hl, hin⟩ := ih (larger m v)
    have hmv : m ≤ larger m v ∧ v ≤ larger m v ∧ (larger m v = m ∨ larger m v = v) := by
      rw [larger]
      split
      · rename_i h
        exact ⟨UInt16.le_of_lt h, UInt16.le_refl v, .inr rfl⟩
      · rename_i h
        exact ⟨UInt16.le_refl m, UInt16.not_lt.1 h, .inl rfl⟩
    rw [List.foldl_cons]
    refine ⟨UInt16.le_trans hmv.1 hm, List.forall_mem_cons.2 ⟨UInt16.le_trans hmv.2.1 hm, hl⟩, ?_⟩
    rcases hin with hin | hin
    · rw [hin]
      exact hmv.2.2.imp id fun h => by simp [h]
    · exact .inr (List.mem_cons_of_mem _ hin)

/-- The version that is picked. -/
theorem ClientHello.version_pickVersion (h : ClientHello) :
    h.Version (pickVersion h.legacyVersion (maxVersion h.versions)) := by
  obtain ⟨-, hle, hin⟩ := foldl_larger (nonGREASE h.versions) 0
  rw [← maxVersion] at hle hin
  have hle' : ∀ w ∈ h.versions, isGREASE w = false → w ≤ maxVersion h.versions :=
    fun w hw hg => hle w (List.mem_filter.2 ⟨hw, by simp [hg]⟩)
  rw [pickVersion]
  split
  · rename_i hne
    obtain ⟨hmem, hg⟩ := List.mem_filter.1 (hin.resolve_left hne)
    exact .inl ⟨hmem, by simpa using hg, hne, hle'⟩
  · rename_i hzero
    rw [ne_eq, not_not] at hzero
    refine .inr ⟨fun w hw hg => ?_, rfl⟩
    have := hle' w hw hg
    rw [hzero] at this
    exact UInt16.le_antisymm this (UInt16.zero_le)

/-- **The parser is safe and exact.**  No access is out of range, whatever the record is; and of a
well-formed message it gives the first host name, the first protocol, and the largest supported
version that is neither GREASE nor zero, or else the legacy version. -/
theorem parseClientHello_exact (sha : Sha) :
    (∀ record, InRange (parseClientHello sha record)) ∧
    ∀ h : ClientHello, h.WellFormed → h.Distinct →
      ∃ info v, parseClientHello sha h.encode = .ok info ∧ info.sni = h.hostName ∧
        info.alpn = h.protocol ∧ h.Version v ∧ info.tlsVersion = versionString v := by
  refine ⟨parseClientHello_inRange sha, fun h hwf hd => ?_⟩
  obtain ⟨ja4, hinfo⟩ := infoOf_ok sha h.legacyVersion (nonGREASE h.ciphers)
    (h.exts.foldl Seen.see .empty)
  rw [← ClientHello.parse_encode hwf, ClientHello.foldl_see hd] at hinfo
  exact ⟨_, _, hinfo, rfl, rfl, h.version_pickVersion, rfl⟩

/-- A message with GREASE entries, a host name, two versions and a protocol. -/
def modern : ClientHello :=
  ⟨0x0301, 0x0303, List.replicate 32 7, [], [0x2a2a, 0x1301], [0],
    some [.other 0x1a1a [], .serverName [(0, [97])], .supportedVersions [0x2a2a, 0x0303, 0x0304],
      .alpn [[104, 50]]]⟩

theorem modern_wellFormed : modern.WellFormed where
  random := rfl
  sessionID := by decide
  ciphers := by decide
  compression := by decide
  each := by decide
  extensions := by decide
  record := by decide

theorem parseClientHello_exact_modern :
    ∃ info v, parseClientHello ⟨fun _ => List.replicate 32 0, fun _ => rfl⟩ modern.encode = .ok info ∧
      info.sni = [97] ∧ info.alpn = [104, 50] ∧ modern.Version v ∧
      info.tlsVersion = versionString v :=
  (parseClientHello_exact _).2 modern modern_wellFormed (by decide)

/-- The only supported version is zero. -/
def zeroVersion : ClientHello :=
  ⟨0x0301, 0x0303, List.replicate 32 7, [], [0x1301], [0], some [.supportedVersions [0x0000]]⟩

/-- Zero stands for "no version" in the parser: a list with zero as the largest version is taken for
one without a version, and the legacy version is given. -/
theorem zero_version_ignored :
    zeroVersion.WellFormed ∧ zeroVersion.Distinct ∧
      zeroVersion.versions = [0x0000] ∧ isGREASE 0x0000 = false ∧
      (∀ sha, ∃ info, parseClientHello sha zeroVersion.encode = .ok info ∧
        info.tlsVersion = ['1', '.', '2']) ∧
      versionString 0x0000 = ['0', 'x', '0', '0', '0', '0'] := by
  have hwf : zeroVersion.WellFormed :=
    ⟨rfl, by decide, by decide, by decide, by decide, by decide, by decide⟩
  refine ⟨hwf, by decide, rfl, by decide, fun sha => ?_, by decide⟩
  obtain ⟨ja4, hok⟩ := infoOf_ok sha zeroVersion.legacyVersion
    (nonGREASE zeroVersion.ciphers) (zeroVersion.exts.foldl Seen.see .empty)
  have hver : versionString (pickVersion zeroVersion.legacyVersion
      (zeroVersion.exts.foldl Seen.see .empty).supportedVerMax) = ['1', '.', '2'] := by decide
  rw [← ClientHello.parse_encode hwf] at hok
  exact ⟨_, hok, hver⟩

end Tunneld.Edge.Hello

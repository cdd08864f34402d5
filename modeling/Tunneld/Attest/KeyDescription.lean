import Mathlib.Data.List.Induction
import Tunneld.Lib.Der

/-!
# The key description of an attestation

The leaf of an attestation chain has an extension that says what key it is for and what app asked
for it (`ParseKeyDescription`).  The app is described in an authorization list, and its name is an
octet string: any bytes (`walkAuthList`).

The certificates themselves are not decoded here; a certificate is its extensions and its serial
number.

The fields before the two lists are read first (`leading`), and each list is its entries, one after
another (`walkAuthList_eq`).  What the key description says about how the device has booted is what
the last entry of the trusted environment's list says (`boot_of_keyDescription`), and entries about
it in the other list change nothing (`SameButSoftwareRoots.keyDescription_eq`).
-/

namespace Tunneld.Attest

open Utf8 Der

/-- What is used of an X.509 certificate. -/
structure Certificate where
  extensions : List (List Nat × Bytes)
  serialNumber : Int

/-- `attestOID`. -/
def attestOID : List Nat := [1, 3, 6, 1, 4, 1, 11129, 2, 1, 17]

/-- `KeyDescription`: the part that the verifier and the report of refused apps need. -/
structure KeyDescription where
  attestationVersion : Int := 0
  keymasterVersion : Int := 0
  securityLevel : Int := 0
  challenge : Bytes := []
  package : Bytes := []
  packageVersion : Int := 0
  signatureDigests : List Bytes := []
  deviceLocked : Bool := false
  verifiedBootState : Int := 0
  hasRootOfTrust : Bool := false
  osVersion : Int := 0
  osPatch : Int := 0
  vendorPatch : Int := 0
  bootPatch : Int := 0
  deriving DecidableEq

/-! ## The entries of an authorization list -/

/-- `attestationPackageInfo`: the name and the version. -/
def packageInfo (l : Bytes) : Option ((Bytes × Int) × Bytes) :=
  (sequence l).bind fun s => (octetString s.1).bind fun name => (integer name.2).map fun version =>
    ((name.1, version.1), s.2)

/-- `attestationApplicationID`: the packages, and the digests of their signers. -/
def applicationID (l : Bytes) : Option (List (Bytes × Int) × List Bytes) :=
  (sequence l).bind fun s => (setOf s.1).bind fun infos => (many packageInfo infos.1).bind fun ps =>
    (setOf infos.2).bind fun digests => (many rawValue digests.1).map fun ds =>
      (ps, ds.map RawValue.bytes)

/-- `rootOfTrust`: whether the device is locked, and the state of its boot. -/
def rootOfTrust (l : Bytes) : Option (Bool × Int) :=
  (sequence l).bind fun s => (octetString s.1).bind fun key => (boolean key.2).bind fun locked =>
    (enumerated locked.2).bind fun state => (skipOctetString state.2).map fun _ =>
      (locked.1, state.1)

/-- `decodeInt`. -/
def decodeInt (l : Bytes) : Option Int := (integer l).map Prod.fst

/-- An entry of an authorization list. -/
def entry (tee : Bool) (rv : RawValue) (out : KeyDescription) : Option KeyDescription :=
  match rv.tag with
  | 704 =>
    -- only the list that the trusted environment enforces says how the device has booted
    if tee then
      (rootOfTrust rv.bytes).map fun r =>
        { out with hasRootOfTrust := true, deviceLocked := r.1, verifiedBootState := r.2 }
    else some out
  | 709 =>
    (rawValue rv.bytes).bind fun inner => (applicationID inner.1.bytes).map fun id =>
      let out := { out with signatureDigests := out.signatureDigests ++ id.2 }
      match id.1 with
      | [] => out
      | (name, version) :: _ => { out with package := name, packageVersion := version }
  | 705 => (decodeInt rv.bytes).map fun n => { out with osVersion := n }
  | 706 => (decodeInt rv.bytes).map fun n => { out with osPatch := n }
  | 718 => (decodeInt rv.bytes).map fun n => { out with vendorPatch := n }
  | 719 => (decodeInt rv.bytes).map fun n => { out with bootPatch := n }
  | _ => some out

/-- The loop of `walkAuthList`.  The number is how many entries to read at most. -/
def walkUpTo (tee : Bool) : Nat → Bytes → KeyDescription → Option KeyDescription
  | _, [], out => some out
  | 0, _ :: _, _ => none
  | n + 1, l, out => (rawValue l).bind fun p => (entry tee p.1 out).bind fun out =>
      walkUpTo tee n p.2 out

/-- `walkAuthList`. -/
def walkAuthList (raw : Bytes) (out : KeyDescription) (tee : Bool) : Option KeyDescription :=
  walkUpTo tee raw.length raw out

/-! ## The extension -/

/-- The value of the extension. -/
def keyDescription (raw : Bytes) : Option KeyDescription :=
  (sequence raw).bind fun s => (integer s.1).bind fun version =>
    (enumerated version.2).bind fun level => (integer level.2).bind fun keymaster =>
      (enumerated keymaster.2).bind fun keymasterLevel =>
        (octetString keymasterLevel.2).bind fun challenge =>
          (octetString challenge.2).bind fun unique =>
            (rawValue unique.2).bind fun software => (rawValue software.2).bind fun trusted =>
              let out : KeyDescription :=
                { attestationVersion := version.1, keymasterVersion := keymaster.1
                  securityLevel := level.1, challenge := challenge.1 }
              (walkAuthList software.1.bytes out false).bind fun out =>
                walkAuthList trusted.1.bytes out true

/-- `ParseKeyDescription`. -/
def parseKeyDescription (leaf : Certificate) : Option KeyDescription :=
  (leaf.extensions.find? fun e => e.1 = attestOID).bind fun e => keyDescription e.2

/-! ## The lists of the extension -/

/-- The fields before the lists, and what follows them. -/
def leading (raw : Bytes) : Option (KeyDescription × Bytes) :=
  (sequence raw).bind fun s => (integer s.1).bind fun version =>
    (enumerated version.2).bind fun level => (integer level.2).bind fun keymaster =>
      (enumerated keymaster.2).bind fun keymasterLevel =>
        (octetString keymasterLevel.2).bind fun challenge =>
          (octetString challenge.2).map fun unique =>
            ({ attestationVersion := version.1, keymasterVersion := keymaster.1
               securityLevel := level.1, challenge := challenge.1 }, unique.2)

theorem keyDescription_eq_leading (raw : Bytes) :
    keyDescription raw = (leading raw).bind fun p =>
      (rawValue p.2).bind fun software => (rawValue software.2).bind fun trusted =>
        (walkAuthList software.1.bytes p.1 false).bind fun out =>
          walkAuthList trusted.1.bytes out true := by
  simp only [keyDescription, leading, Option.bind_assoc, Option.bind_map]
  rfl

/-- The entries of the list that the trusted environment enforces. -/
def teeEnforced (raw : Bytes) : Option (List RawValue) :=
  (leading raw).bind fun p => (rawValue p.2).bind fun software =>
    (rawValue software.2).bind fun trusted => many rawValue trusted.1.bytes

/-- The entry is about how the device has booted. -/
def isRootOfTrust (rv : RawValue) : Bool := rv.tag == 704

theorem walkUpTo_eq (tee : Bool) (n : Nat) (l : Bytes) (out : KeyDescription) :
    walkUpTo tee n l out =
      (manyUpTo rawValue n l).bind fun es => es.foldlM (fun out e => entry tee e out) out := by
  induction n generalizing l out with
  | zero =>
    cases l with
    | nil => rfl
    | cons b l => rfl
  | succ n ih =>
    cases l with
    | nil => rfl
    | cons b l =>
      rw [walkUpTo, manyUpTo, Option.bind_assoc]
      · refine Option.bind_congr fun p _ => ?_
        rw [Option.bind_map]
        -- a malformed entry behind this one makes both fail, whatever this one says
        cases he : entry tee p.1 out with
        | none =>
          cases manyUpTo rawValue n p.2 with
          | none => rfl
          | some es => simp [he]
        | some out' =>
          rw [Option.bind_some, ih]
          refine Option.bind_congr fun es _ => ?_
          simp [he]
      · simp
      · simp

/-- A list is walked if all of its entries can be read, and then they are taken one by one. -/
theorem walkAuthList_eq (tee : Bool) (raw : Bytes) (out : KeyDescription) :
    walkAuthList raw out tee =
      (many rawValue raw).bind fun es => es.foldlM (fun out e => entry tee e out) out :=
  walkUpTo_eq tee raw.length raw out

/-! ## How the device has booted -/

/-- What is known of it: whether the device is locked, and the state of its boot. -/
def KeyDescription.boot (kd : KeyDescription) : Option (Bool × Int) :=
  if kd.hasRootOfTrust then some (kd.deviceLocked, kd.verifiedBootState) else none

variable {tee : Bool} {out out' : KeyDescription}

theorem boot_of_entry {e : RawValue} (h : entry tee e out = some out') :
    (tee = true ∧ isRootOfTrust e = true ∧ rootOfTrust e.bytes = out'.boot) ∨
      (¬ (tee = true ∧ isRootOfTrust e = true) ∧ out'.boot = out.boot) := by
  by_cases hroot : isRootOfTrust e = true
  · rw [entry, beq_iff_eq.1 hroot] at h
    cases tee with
    | true =>
      obtain ⟨r, hr, rfl⟩ := Option.map_eq_some_iff.1 h
      exact .inl ⟨rfl, hroot, hr⟩
    | false =>
      cases h
      exact .inr ⟨by simp, rfl⟩
  · refine .inr ⟨fun hboth => hroot hboth.2, ?_⟩
    unfold entry at h
    split at h
    · rename_i htag
      exact absurd (beq_iff_eq.2 htag) hroot
    · obtain ⟨inner, -, hid⟩ := Option.bind_eq_some_iff.1 h
      obtain ⟨⟨ps, ds⟩, -, rfl⟩ := Option.map_eq_some_iff.1 hid
      cases ps with
      | nil => rfl
      | cons p ps => rfl
    -- the version and the three patch levels
    iterate 4
      obtain ⟨n, -, rfl⟩ := Option.map_eq_some_iff.1 h
      rfl
    cases h
    rfl

variable {es : List RawValue}

/-- Only the trusted environment's list says how the device has booted. -/
theorem boot_of_software (h : es.foldlM (fun out e => entry false e out) out = some out') :
    out'.boot = out.boot := by
  induction es generalizing out with
  | nil => cases h; rfl
  | cons e es ih =>
    obtain ⟨mid, he, hrest⟩ := Option.bind_eq_some_iff.1 h
    rcases boot_of_entry he with ⟨htee, -⟩ | ⟨-, hboot⟩
    · cases htee
    · rw [ih hrest, hboot]

/-- In that list, the last entry about it counts. -/
theorem boot_of_tee {b : Bool × Int} (h : es.foldlM (fun out e => entry true e out) out = some out')
    (hout : out.boot = none) (hb : out'.boot = some b) :
    ∃ rv, (es.filter isRootOfTrust).getLast? = some rv ∧ rootOfTrust rv.bytes = some b := by
  induction es using List.reverseRecOn generalizing out' with
  | nil =>
    cases h
    rw [hout] at hb
    cases hb
  | append_singleton es e ih =>
    rw [List.foldlM_append] at h
    obtain ⟨mid, hmid, hlast⟩ := Option.bind_eq_some_iff.1 h
    have he : entry true e mid = some out' := by simpa using hlast
    rw [List.filter_append]
    rcases boot_of_entry he with ⟨-, hroot, hread⟩ | ⟨hno, hsame⟩
    · refine ⟨e, ?_, hread.trans hb⟩
      rw [List.filter_cons_of_pos hroot, List.filter_nil, List.getLast?_concat]
    · rw [List.filter_cons_of_neg (fun hroot => hno ⟨rfl, hroot⟩), List.filter_nil, List.append_nil]
      exact ih hmid (hsame.symm.trans hb)

variable {raw : Bytes}

theorem boot_leading {p : KeyDescription × Bytes} (h : leading raw = some p) : p.1.boot = none := by
  simp only [leading, Option.bind_eq_some_iff, Option.map_eq_some_iff] at h
  obtain ⟨s, -, version, -, level, -, keymaster, -, keymasterLevel, -, challenge, -, unique, -,
    rfl⟩ := h
  rfl

/-- What is known of it is what the last entry about it says, of the list that the trusted
environment enforces. -/
theorem boot_of_keyDescription {kd : KeyDescription} {b : Bool × Int}
    (h : keyDescription raw = some kd) (hb : kd.boot = some b) :
    ∃ es rv, teeEnforced raw = some es ∧ (es.filter isRootOfTrust).getLast? = some rv ∧
      rootOfTrust rv.bytes = some b := by
  rw [keyDescription_eq_leading] at h
  obtain ⟨p, hp, h⟩ := Option.bind_eq_some_iff.1 h
  obtain ⟨software, hsoftware, h⟩ := Option.bind_eq_some_iff.1 h
  obtain ⟨trusted, htrusted, h⟩ := Option.bind_eq_some_iff.1 h
  obtain ⟨out, hout, h⟩ := Option.bind_eq_some_iff.1 h
  rw [walkAuthList_eq] at hout h
  obtain ⟨ss, -, hout⟩ := Option.bind_eq_some_iff.1 hout
  obtain ⟨es, hes, h⟩ := Option.bind_eq_some_iff.1 h
  have hnone : out.boot = none := (boot_of_software hout).trans (boot_leading hp)
  obtain ⟨rv, hlast, hread⟩ := boot_of_tee h hnone hb
  refine ⟨es, rv, ?_, hlast, hread⟩
  rw [teeEnforced, hp, Option.bind_some, hsoftware, Option.bind_some, htrusted, Option.bind_some,
    hes]

/-! ## The fields before the lists -/

/-- No entry is about the challenge or the level. -/
theorem entry_leading {e : RawValue} (h : entry tee e out = some out') :
    out'.challenge = out.challenge ∧ out'.securityLevel = out.securityLevel := by
  unfold entry at h
  split at h
  · cases tee with
    | true =>
      obtain ⟨r, -, rfl⟩ := Option.map_eq_some_iff.1 h
      exact ⟨rfl, rfl⟩
    | false =>
      cases h
      exact ⟨rfl, rfl⟩
  · obtain ⟨inner, -, hid⟩ := Option.bind_eq_some_iff.1 h
    obtain ⟨⟨ps, ds⟩, -, rfl⟩ := Option.map_eq_some_iff.1 hid
    cases ps <;> exact ⟨rfl, rfl⟩
  iterate 4
    obtain ⟨n, -, rfl⟩ := Option.map_eq_some_iff.1 h
    exact ⟨rfl, rfl⟩
  cases h
  exact ⟨rfl, rfl⟩

theorem foldlM_leading (h : es.foldlM (fun out e => entry tee e out) out = some out') :
    out'.challenge = out.challenge ∧ out'.securityLevel = out.securityLevel := by
  induction es generalizing out with
  | nil =>
    cases h
    exact ⟨rfl, rfl⟩
  | cons e es ih =>
    obtain ⟨mid, he, hrest⟩ := Option.bind_eq_some_iff.1 h
    obtain ⟨hchallenge, hlevel⟩ := entry_leading he
    exact ⟨(ih hrest).1.trans hchallenge, (ih hrest).2.trans hlevel⟩

/-- The challenge and the level are those of the fields before the lists. -/
theorem leading_of_keyDescription {kd : KeyDescription} (h : keyDescription raw = some kd) :
    ∃ fields lists, leading raw = some (fields, lists) ∧ kd.challenge = fields.challenge ∧
      kd.securityLevel = fields.securityLevel := by
  rw [keyDescription_eq_leading] at h
  obtain ⟨p, hp, h⟩ := Option.bind_eq_some_iff.1 h
  obtain ⟨software, -, h⟩ := Option.bind_eq_some_iff.1 h
  obtain ⟨trusted, -, h⟩ := Option.bind_eq_some_iff.1 h
  obtain ⟨out, hout, h⟩ := Option.bind_eq_some_iff.1 h
  rw [walkAuthList_eq] at hout h
  obtain ⟨ss, -, hout⟩ := Option.bind_eq_some_iff.1 hout
  obtain ⟨es, -, h⟩ := Option.bind_eq_some_iff.1 h
  obtain ⟨hchallenge, hlevel⟩ := foldlM_leading hout
  exact ⟨p.1, p.2, hp, (foldlM_leading h).1.trans hchallenge, (foldlM_leading h).2.trans hlevel⟩

/-! ## Entries about it in the other list -/

/-- Without the entries about how the device has booted, the other list is walked the same. -/
theorem foldlM_software (es : List RawValue) (out : KeyDescription) :
    es.foldlM (fun out e => entry false e out) out =
      (es.filter (!isRootOfTrust ·)).foldlM (fun out e => entry false e out) out := by
  induction es generalizing out with
  | nil => rfl
  | cons e es ih =>
    by_cases hroot : isRootOfTrust e = true
    · have hskip : entry false e out = some out := by rw [entry, beq_iff_eq.1 hroot]; rfl
      rw [List.filter_cons_of_neg (by simp [hroot]), List.foldlM_cons, hskip]
      exact ih out
    · rw [List.filter_cons_of_pos (by simpa using hroot), List.foldlM_cons, List.foldlM_cons]
      exact Option.bind_congr fun out' _ => ih out'

/-- The two values are the same but for entries about how the device has booted in the list that is
enforced by software: any number of them, anywhere and of any content. -/
structure SameButSoftwareRoots (raw raw' : Bytes) : Prop where
  same : ∃ fields lists lists' software software' behind es es',
    leading raw = some (fields, lists) ∧ leading raw' = some (fields, lists') ∧
    rawValue lists = some (software, behind) ∧ rawValue lists' = some (software', behind) ∧
    many rawValue software.bytes = some es ∧ many rawValue software'.bytes = some es' ∧
    es.filter (!isRootOfTrust ·) = es'.filter (!isRootOfTrust ·)

/-- They are the same key description, or both are none. -/
theorem SameButSoftwareRoots.keyDescription_eq {raw raw' : Bytes}
    (h : SameButSoftwareRoots raw raw') : keyDescription raw = keyDescription raw' := by
  obtain ⟨fields, lists, lists', software, software', behind, es, es', hlead, hlead', hsoft, hsoft',
    hes, hes', hsame⟩ := h.same
  have hwalk : walkAuthList software.bytes fields false =
      walkAuthList software'.bytes fields false := by
    rw [walkAuthList_eq, walkAuthList_eq, hes, hes', Option.bind_some, Option.bind_some,
      foldlM_software, hsame, ← foldlM_software]
  rw [keyDescription_eq_leading, keyDescription_eq_leading, hlead, hlead', Option.bind_some,
    Option.bind_some, hsoft, hsoft', Option.bind_some, Option.bind_some, hwalk]

end Tunneld.Attest

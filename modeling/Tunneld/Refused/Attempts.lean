import Tunneld.Attest.KeyDescription
import Tunneld.Lib.Json
import Tunneld.Lib.Rfc3339
import Tunneld.Lib.Hex
import Mathlib.Data.List.AList
import Mathlib.Data.List.Sort

/-!
# The list of refused attempts

The daily report of refused apps remembers the attempts it has reported: by the name of the app, the
list of its attempts.  An attempt is made out of a refusal record (`toAttempt`), and is the same as
another one if app, time, address and key are (`idOf`).  Between two reports the list is stored as
JSON.

The name of the app comes out of an attestation and is any byte string, but what JSON gives back is
UTF-8, and `UnixNano` has 64 bits.  So the list that is read is the list that was written if all
names are UTF-8 (`load_save`), and two attempts of the same id have the same time if both are in the
range of 64 bits (`eq_of_idOf_eq`).
-/

namespace Tunneld.Refused

open Utf8 Attest

/-- A string that has been decoded from JSON: it is UTF-8. -/
structure Text where
  bytes : Bytes
  valid : Valid bytes

/-- `store.RejectedEnrollment`, as it is decoded.  The time is in nanoseconds since the start of the
year 1. -/
structure RejectedEnrollment where
  ts : Nat
  srcIP : Text
  reason : Text
  attestChainPEM : Text
  claimedPackage : Text
  signerDigestHex : Text

/-- An attempt. -/
structure Attempt where
  time : Nat
  ip : Bytes
  key : Bytes
  version : Int
  verified : Bool
  deriving DecidableEq

/-- `attemptList`. -/
structure AttemptList where
  lastReport : Bytes
  apps : AList fun _ : Bytes => List Attempt

/-- `attemptID`. -/
structure AttemptID where
  app : Bytes
  nano : Int
  ip : Bytes
  key : Bytes
  deriving DecidableEq

/-! ## The list -/

/-- The start of the year 1970. -/
def unixEpoch : Int := 62135596800000000000

/-- `Time.UnixNano`, in 64 bits. -/
def unixNano (t : Nat) : Int := Int.bmod (t - unixEpoch) 18446744073709551616

def idOf (app : Bytes) (a : Attempt) : AttemptID := ⟨app, unixNano a.time, a.ip, a.key⟩

/-- The attempts of the list, each with its app. -/
def AttemptList.attempts (l : AttemptList) : List (Bytes × Attempt) :=
  l.apps.entries.flatMap fun e => e.2.map fun a => (e.1, a)

/-- The ids of attempts. -/
def ids (l : List (Bytes × Attempt)) : List AttemptID := l.map fun p => idOf p.1 p.2

def AttemptList.index (l : AttemptList) : List AttemptID := ids l.attempts

/-- `sort.SliceStable` by time. -/
def sortByTime (l : List Attempt) : List Attempt :=
  l.insertionSort fun a b => a.time ≤ b.time

/-- The list with an attempt more. -/
def AttemptList.put (l : AttemptList) (app : Bytes) (a : Attempt) : AttemptList :=
  { l with apps := l.apps.insert app (sortByTime (((l.apps.lookup app).getD []) ++ [a])) }

/-- `add`: the list and the index with an attempt that is new, or nothing. -/
def AttemptList.add (l : AttemptList) (idx : List AttemptID) (app : Bytes) (a : Attempt) :
    Option (AttemptList × List AttemptID) :=
  if idOf app a ∈ idx then none else some (l.put app a, idOf app a :: idx)

/-! ## The attempt of a record -/

/-- `chainTrusted`. -/
def chainTrusted (reason : Bytes) : Bool :=
  reason ∈ ["attest-challenge", "attest-signer", "attest-security-level", "attest-boot",
    "attest-device-unlocked", "attest-stale", "csr-mismatch"].map fun s => ascii s.toList

/-- `attest.SecurityTrustedEnvironment`. -/
def securityTrustedEnvironment : Int := 1

/-- `attest.BootVerified`. -/
def bootVerified : Int := 0

/-- What the job does not decode itself: `parseChain`, by `encoding/pem` and `crypto/x509`. -/
abbrev ChainParser := Bytes → Option (List Certificate)

/-- The attempt by the record alone. -/
def ofRecord (ev : RejectedEnrollment) : Attempt :=
  ⟨ev.ts, ev.srcIP.bytes, ev.signerDigestHex.bytes, 0, false⟩

/-- The attempt by the record and the key description. -/
def ofDescription (ev : RejectedEnrollment) (kd : KeyDescription) (isRevoked : Bool) : Attempt where
  time := ev.ts
  ip := ev.srcIP.bytes
  key :=
    match kd.signatureDigests with
    | [] => ev.signerDigestHex.bytes
    | d :: _ =>
      if ev.signerDigestHex.bytes = [] then ascii (Hex.encode d) else ev.signerDigestHex.bytes
  version := kd.packageVersion
  verified := chainTrusted ev.reason.bytes && securityTrustedEnvironment ≤ kd.securityLevel &&
    kd.hasRootOfTrust && kd.deviceLocked && kd.verifiedBootState = bootVerified && !isRevoked

/-- The key description of a record, with its chain, if both can be read. -/
def described (parseChain : ChainParser) (ev : RejectedEnrollment) :
    Option (List Certificate × KeyDescription) :=
  match parseChain ev.attestChainPEM.bytes with
  | some (leaf :: rest) => (parseKeyDescription leaf).map fun kd => (leaf :: rest, kd)
  | some [] | none => none

/-- `toAttempt`, with the revocation list as a test for serial numbers. -/
def toAttempt (parseChain : ChainParser) (revoked : Int → Bool) (ev : RejectedEnrollment) :
    Bytes × Attempt :=
  match described parseChain ev with
  | none => (ev.claimedPackage.bytes, ofRecord ev)
  | some (chain, kd) =>
    (kd.package, ofDescription ev kd (chain.any fun c => revoked c.serialNumber))

/-! ## The stored list -/

/-- The name of a member. -/
def name (s : String) : Bytes := ascii s.toList

/-- The JSON of an attempt. -/
def Attempt.json (a : Attempt) : Json.Value :=
  .obj [(name "at", .str (ascii (Timestamp.format a.time))), (name "ip", .str a.ip),
    (name "key", .str a.key), (name "version", .int a.version), (name "verified", .bool a.verified)]

/-- The order of byte strings. -/
def leBytes : Bytes → Bytes → Bool
  | [], _ => true
  | _ :: _, [] => false
  | a :: l, b :: m => if a = b then leBytes l m else a < b

/-- The apps in the order of their names, as `encoding/json` writes the keys of a map. -/
def AttemptList.sorted (l : AttemptList) : List (Σ _ : Bytes, List Attempt) :=
  l.apps.entries.insertionSort fun d e => leBytes d.1 e.1 = true

/-- The members of the apps. -/
def members (es : List (Σ _ : Bytes, List Attempt)) : List (Bytes × Json.Value) :=
  es.map fun e => (e.1, .arr (e.2.map Attempt.json))

/-- The JSON of the list. -/
def AttemptList.json (l : AttemptList) : Json.Value :=
  .obj [(name "last_report", .str l.lastReport), (name "apps", .obj (members l.sorted))]

/-- `json.Marshal`, which has no text for a year with five digits. -/
def AttemptList.save (l : AttemptList) : Option Bytes :=
  if l.attempts.all fun p => p.2.time < Timestamp.limit then some (Json.encode l.json) else none

/-- A member of an attempt. -/
def Attempt.set (a : Attempt) (m : Bytes × Json.Value) : Option Attempt :=
  if m.1 = name "at" then
    match m.2 with
    | .str s => (Timestamp.parse (chars s)).map fun t => { a with time := t }
    | _ => none
  else if m.1 = name "ip" then
    match m.2 with
    | .str s => some { a with ip := s }
    | _ => none
  else if m.1 = name "key" then
    match m.2 with
    | .str s => some { a with key := s }
    | _ => none
  else if m.1 = name "version" then
    match m.2 with
    | .int n => some { a with version := n }
    | _ => none
  else if m.1 = name "verified" then
    match m.2 with
    | .bool b => some { a with verified := b }
    | _ => none
  else some a

/-- An attempt, from its JSON. -/
def Attempt.ofJson : Json.Value → Option Attempt
  | .obj l => l.foldlM Attempt.set ⟨0, [], [], 0, false⟩
  | _ => none

/-- The attempts of an app. -/
def attemptsOfJson : Json.Value → Option (List Attempt)
  | .arr l => l.mapM Attempt.ofJson
  | _ => none

/-- The apps: of two members with the same name the last one counts. -/
def appsOfJson : Json.Value → Option (AList fun _ : Bytes => List Attempt)
  | .obj l => l.foldlM (fun apps m => (attemptsOfJson m.2).map fun as => apps.insert m.1 as) ∅
  | _ => none

/-- A member of the list. -/
def AttemptList.set (l : AttemptList) (m : Bytes × Json.Value) : Option AttemptList :=
  if m.1 = name "last_report" then
    match m.2 with
    | .str s => some { l with lastReport := s }
    | _ => none
  else if m.1 = name "apps" then (appsOfJson m.2).map fun apps => { l with apps := apps }
  else some l

/-- The list, from its JSON. -/
def AttemptList.ofJson : Json.Value → Option AttemptList
  | .obj l => l.foldlM AttemptList.set ⟨[], ∅⟩
  | _ => none

/-- `load`: a new list, if none is stored. -/
def load : Option Bytes → Option AttemptList
  | none => some ⟨[], ∅⟩
  | some s => (Json.decode s).bind AttemptList.ofJson

/-! ## What is read is what was written -/

/-- The list can be stored without loss. -/
structure Storable (l : AttemptList) : Prop where
  report : Valid l.lastReport
  names : ∀ e ∈ l.apps.entries, Valid e.1
  attempts : ∀ p ∈ l.attempts, Valid p.2.ip ∧ Valid p.2.key ∧ p.2.time < Timestamp.limit

section Stored

variable {l : AttemptList} {a : Attempt}

theorem Attempt.clean_json (hip : Valid a.ip) (hkey : Valid a.key) :
    Json.clean a.json = a.json := by
  rw [Attempt.json, Json.clean, Json.cleanMembers_of_forall]
  simp only [List.forall_mem_cons, List.not_mem_nil, false_imp_iff, implies_true, and_true]
  refine ⟨⟨by decide, ?_⟩, ⟨by decide, ?_⟩, ⟨by decide, ?_⟩, ⟨by decide, rfl⟩, ⟨by decide, rfl⟩⟩
  · rw [Json.clean, sanitize_of_valid (valid_ascii (Timestamp.format_ascii a.time))]
  · rw [Json.clean, sanitize_of_valid hip]
  · rw [Json.clean, sanitize_of_valid hkey]

theorem Attempt.ofJson_json (h : a.time < Timestamp.limit) : Attempt.ofJson a.json = some a := by
  have htime : Timestamp.parse (chars (ascii (Timestamp.format a.time))) = some a.time := by
    rw [chars_ascii (Timestamp.format_ascii a.time), Timestamp.parse_format h]
  have hat : name "ip" ≠ name "at" ∧ name "key" ≠ name "at" ∧ name "version" ≠ name "at" ∧
      name "verified" ≠ name "at" := by decide
  have hip : name "key" ≠ name "ip" ∧ name "version" ≠ name "ip" ∧ name "verified" ≠ name "ip" := by
    decide
  have hkey : name "version" ≠ name "key" ∧ name "verified" ≠ name "key" := by decide
  have hversion : name "verified" ≠ name "version" := by decide
  simp only [Attempt.ofJson, Attempt.json, List.foldlM_cons, List.foldlM_nil, Attempt.set, if_true,
    htime, hat, hip, hkey, hversion, if_false, Option.map_some, Option.bind_eq_bind,
    Option.bind_some, Option.pure_def]

theorem attemptsOfJson_json {as : List Attempt} (h : ∀ a ∈ as, a.time < Timestamp.limit) :
    attemptsOfJson (.arr (as.map Attempt.json)) = some as := by
  rw [attemptsOfJson]
  induction as with
  | nil => rfl
  | cons a as ih =>
    rw [List.map_cons, List.mapM_cons, Attempt.ofJson_json (h a List.mem_cons_self),
      ih fun b hb => h b (.tail _ hb)]
    rfl

/-- Names that differ are all kept. -/
theorem foldlM_members {es : List (Σ _ : Bytes, List Attempt)} (hnodup : es.NodupKeys)
    (htime : ∀ e ∈ es, ∀ a ∈ e.2, a.time < Timestamp.limit)
    (apps : AList fun _ : Bytes => List Attempt) (hnew : ∀ e ∈ es, e.1 ∉ apps) :
    ∃ apps', (members es).foldlM
      (fun apps m => (attemptsOfJson m.2).map fun as => apps.insert m.1 as) apps = some apps' ∧
      apps'.entries.Perm (es ++ apps.entries) := by
  induction es generalizing apps with
  | nil => exact ⟨apps, rfl, .refl _⟩
  | cons e es ih =>
    obtain ⟨hne, hnodup⟩ := List.nodupKeys_cons.1 hnodup
    have hnot : e.1 ∉ apps := hnew e List.mem_cons_self
    have hread := attemptsOfJson_json (htime e List.mem_cons_self)
    obtain ⟨apps', hfold, hperm⟩ := ih hnodup (fun d hd => htime d (.tail _ hd))
      (apps.insert e.1 e.2) fun d hd hmem => by
        rcases (AList.mem_insert _).1 hmem with heq | hmem
        · exact hne (heq ▸ List.mem_keys_of_mem hd)
        · exact hnew d (.tail _ hd) hmem
    refine ⟨apps', ?_, ?_⟩
    · rw [members, List.map_cons, List.foldlM_cons, hread]
      exact hfold
    · rw [AList.entries_insert_of_notMem hnot] at hperm
      exact hperm.trans List.perm_middle

theorem AttemptList.sorted_perm (l : AttemptList) : l.sorted.Perm l.apps.entries :=
  List.perm_insertionSort _ _

theorem AttemptList.mem_attempts {app : Bytes} :
    (app, a) ∈ l.attempts ↔ ∃ e ∈ l.apps.entries, e.1 = app ∧ a ∈ e.2 := by
  simp only [AttemptList.attempts, List.mem_flatMap, List.mem_map, Prod.mk.injEq]
  constructor
  · rintro ⟨e, he, a', ha, happ, rfl⟩
    exact ⟨e, he, happ, ha⟩
  · rintro ⟨e, he, happ, ha⟩
    exact ⟨e, he, a, ha, happ, rfl⟩

theorem AttemptList.attempts_perm {l l' : AttemptList}
    (h : l'.apps.entries.Perm l.apps.entries) : l'.attempts.Perm l.attempts :=
  h.flatMap_right _

theorem Storable.of_perm {l' : AttemptList} (h : Storable l)
    (hreport : l'.lastReport = l.lastReport) (hperm : l'.apps.entries.Perm l.apps.entries) :
    Storable l' where
  report := hreport ▸ h.report
  names e he := h.names e (hperm.mem_iff.1 he)
  attempts p hp := h.attempts p ((AttemptList.attempts_perm hperm).mem_iff.1 hp)

theorem Storable.clean_json (h : Storable l) : Json.clean l.json = l.json := by
  have hentry : ∀ e ∈ l.sorted, Valid e.1 ∧ ∀ a ∈ e.2, Valid a.ip ∧ Valid a.key := by
    intro e he
    have hmem := l.sorted_perm.mem_iff.1 he
    refine ⟨h.names e hmem, fun a ha => ?_⟩
    obtain ⟨hip, hkey, -⟩ := h.attempts (e.1, a) (AttemptList.mem_attempts.2 ⟨e, hmem, rfl, ha⟩)
    exact ⟨hip, hkey⟩
  have happs : Json.cleanMembers (members l.sorted) = members l.sorted := by
    refine Json.cleanMembers_of_forall fun m hm => ?_
    obtain ⟨e, he, rfl⟩ := List.mem_map.1 hm
    refine ⟨(hentry e he).1, ?_⟩
    rw [Json.clean, Json.cleanElems_of_forall]
    intro v hv
    obtain ⟨a, ha, rfl⟩ := List.mem_map.1 hv
    obtain ⟨hip, hkey⟩ := (hentry e he).2 a ha
    exact Attempt.clean_json hip hkey
  rw [AttemptList.json, Json.clean, Json.cleanMembers_of_forall]
  simp only [List.forall_mem_cons, List.not_mem_nil, false_imp_iff, implies_true, and_true]
  refine ⟨⟨by decide, ?_⟩, ⟨by decide, ?_⟩⟩
  · rw [Json.clean, sanitize_of_valid h.report]
  · rw [Json.clean, happs]

/-- **The list that is read is the list that was written**, up to the order of the apps. -/
theorem Storable.load_save (h : Storable l) :
    ∃ s l', l.save = some s ∧ load (some s) = some l' ∧ l'.lastReport = l.lastReport ∧
      l'.apps.entries.Perm l.apps.entries := by
  have htime : ∀ e ∈ l.sorted, ∀ a ∈ e.2, a.time < Timestamp.limit := by
    intro e he a ha
    have hmem := l.sorted_perm.mem_iff.1 he
    exact (h.attempts (e.1, a) (AttemptList.mem_attempts.2 ⟨e, hmem, rfl, ha⟩)).2.2
  have hnodup : l.sorted.NodupKeys :=
    (List.perm_nodupKeys l.sorted_perm).2 l.apps.nodupKeys
  obtain ⟨apps, hfold, hperm⟩ := foldlM_members hnodup htime ∅ fun e _ => AList.notMem_empty e.1
  rw [AList.empty_entries, List.append_nil] at hperm
  have hsave : l.save = some (Json.encode l.json) := by
    refine if_pos (List.all_eq_true.2 fun p hp => decide_eq_true ?_)
    exact (h.attempts p hp).2.2
  refine ⟨_, ⟨l.lastReport, apps⟩, hsave, ?_, rfl, hperm.trans l.sorted_perm⟩
  rw [load, Json.decode_encode, h.clean_json, Option.bind_some, AttemptList.json,
    AttemptList.ofJson]
  have hname : name "apps" ≠ name "last_report" := by decide
  have happs : appsOfJson (.obj (members l.sorted)) = some apps := hfold
  simp only [List.foldlM_cons, List.foldlM_nil, AttemptList.set, if_true, if_neg hname, happs,
    Option.bind_eq_bind, Option.bind_some]
  rfl

end Stored

/-! ## A new attempt -/

section Put

variable {l : AttemptList} {app : Bytes} {a : Attempt}

/-- The entry of an app that has one, and the others. -/
theorem entries_perm {apps : AList fun _ : Bytes => List Attempt} {as : List Attempt}
    (h : apps.lookup app = some as) :
    apps.entries.Perm (⟨app, as⟩ :: apps.entries.kerase app) := by
  have hmem : app ∈ apps.entries.keys := AList.lookup_isSome.1 (by rw [h]; rfl)
  obtain ⟨as', l₁, l₂, -, hentries, hkerase⟩ := List.exists_of_kerase hmem
  have has : as' = as := by
    have hin : (⟨app, as'⟩ : Σ _ : Bytes, List Attempt) ∈ apps.entries := by
      rw [hentries]
      exact List.mem_append_right _ List.mem_cons_self
    exact Option.some.inj ((AList.mem_lookup_iff.2 hin).symm.trans h)
  rw [hkerase, hentries, has]
  exact List.perm_middle

/-- The list has the new attempt, and what it had. -/
theorem AttemptList.attempts_put (l : AttemptList) (app : Bytes) (a : Attempt) :
    (l.put app a).attempts.Perm ((app, a) :: l.attempts) := by
  have hsort (as : List Attempt) : ((sortByTime (as ++ [a])).map fun b => (app, b)).Perm
      ((app, a) :: as.map fun b => (app, b)) := by
    refine ((List.perm_insertionSort _ (as ++ [a])).map _).trans ?_
    rw [List.map_append]
    exact List.perm_append_singleton _ _
  rw [AttemptList.attempts, AttemptList.put, AList.entries_insert, List.flatMap_cons]
  cases happ : l.apps.lookup app with
  | none =>
    rw [List.kerase_of_notMem_keys (AList.lookup_eq_none.1 happ)]
    exact (hsort []).append_right _
  | some as =>
    have hold := (entries_perm happ).flatMap_right fun e => e.2.map fun b => (e.1, b)
    exact ((hsort as).append_right _).trans (hold.symm.cons _)

/-- The names of the apps are those there were and that of the attempt. -/
theorem AttemptList.names_put {e : Σ _ : Bytes, List Attempt}
    (h : e ∈ (l.put app a).apps.entries) : e.1 = app ∨ e.1 ∈ l.apps := by
  exact (AList.mem_insert _).1 (List.mem_keys_of_mem h)

/-- A list with a new attempt can be stored if the attempt can. -/
theorem Storable.put (h : Storable l) (hname : Valid app)
    (ha : Valid a.ip ∧ Valid a.key ∧ a.time < Timestamp.limit) : Storable (l.put app a) where
  report := h.report
  names e he := by
    rcases AttemptList.names_put he with heq | hold
    · exact heq ▸ hname
    · obtain ⟨d, hd, heq⟩ := List.mem_map.1 hold
      exact heq ▸ h.names d hd
  attempts p hp := by
    rcases List.mem_cons.1 ((l.attempts_put app a).mem_iff.1 hp) with rfl | hp
    · exact ha
    · exact h.attempts p hp

end Put

/-! ## Ids -/

/-- The time has a `UnixNano`: it is between the years 1678 and 2262. -/
def InRange (t : Nat) : Prop :=
  -9223372036854775808 ≤ (t : Int) - unixEpoch ∧ (t : Int) - unixEpoch < 9223372036854775808

instance (t : Nat) : Decidable (InRange t) := inferInstanceAs (Decidable (_ ∧ _))

theorem InRange.lt_limit {t : Nat} (h : InRange t) : t < Timestamp.limit := by
  have hlt := h.2
  have hlimit : Timestamp.limit = 315537897600000000000 := by decide
  rw [unixEpoch] at hlt
  omega

theorem InRange.unixNano {t : Nat} (h : InRange t) : unixNano t = t - unixEpoch := by
  refine Int.bmod_eq_of_le ?_ ?_
  · exact h.1
  · exact h.2

/-- Two attempts in range with the same id are of the same app, time, address and key. -/
theorem eq_of_idOf_eq {app app' : Bytes} {a a' : Attempt} (ha : InRange a.time)
    (ha' : InRange a'.time) (h : idOf app a = idOf app' a') :
    app = app' ∧ a.time = a'.time ∧ a.ip = a'.ip ∧ a.key = a'.key := by
  simp only [idOf, AttemptID.mk.injEq, ha.unixNano, ha'.unixNano] at h
  obtain ⟨happ, htime, hip, hkey⟩ := h
  exact ⟨happ, by omega, hip, hkey⟩

end Tunneld.Refused

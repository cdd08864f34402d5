import Tunneld.Attest.KeyDescription
import Tunneld.Attest.Status
import Tunneld.Lib.Checked

/-!
# Which attestations are accepted

`Verifier.Verify`: a chain of certificates is accepted if it leads to one of the roots, and what its
leaf says about the key, the app and the device is good enough, and no key of the chain is on the
status list.  The checks are made one after another, and the first that fails gives its error.
`Passed` is what is known of a chain that was accepted, and everything here is read off it.

That a chain leads to a root is for `crypto/x509` to say (`leadsToRoot`); it may say anything here.

## Main results

* `verify_refuses_listed`: which spellings of a serial number on the status list are heeded, and
  `leading_zeros_not_found`, one that is not;
* `boot_state_of_tee`: what an accepted chain says, and that only the trusted environment says how
  the device has booted.
-/

namespace Tunneld.Attest

open Utf8 Checked

/-- A certificate of a chain: also its bytes and its key. -/
structure ChainCertificate (κ : Type) extends Certificate where
  raw : Bytes
  publicKey : κ

/-- The errors of `Verify`. -/
inductive VerifyError
  | chainUntrusted
  | challengeMismatch
  | signerNotAllowed
  | securityLevel
  | bootState
  | deviceUnlocked
  | revoked
  | statusStale
  | emptyChain
  deriving DecidableEq

/-- `store.DeviceInfo`. -/
structure DeviceInfo where
  osVersion : Int
  osPatch : Int
  vendorPatch : Int
  bootPatch : Int
  attestationVersion : Int
  keymintVersion : Int
  securityLevel : String

/-- `Result`. -/
structure VerifyResult (κ : Type) where
  package : Bytes
  device : DeviceInfo
  leafPublicKey : κ

/-- `Verifier`, with what its roots, its status list and its signers are at the moment. -/
structure Verifier (ρ : Type) where
  roots : Option ρ
  status : Option StatusSnapshot
  signers : Option (List (List Char))
  maxStale : Int

/-- `SignerAllowlist.Allowed`. -/
def allowed (signers : Option (List (List Char))) (digestHex : List Char) : Bool :=
  match signers with
  | none => false
  | some set => set.contains (digestHex.map Char.toLower)

/-- `Verifier.signerAllowed`. -/
def Verifier.signerAllowed {ρ : Type} (v : Verifier ρ) (digests : List Bytes) : Bool :=
  digests.any fun d => allowed v.signers (Hex.encode d)

/-- `securityLevelString`. -/
def securityLevelString (level : Int) : String :=
  if level = 2 then "strongbox" else if level = 1 then "tee" else "software"

/-- `bytesEqualConst`. -/
def bytesEqualConst (a b : Bytes) : Bool :=
  if a.length = 0 ∨ b.length = 0 then false else decide (a = b)

/-- A certificate is there twice.  The first argument is what has been seen. -/
def duplicated (seen : List Bytes) : List Bytes → Bool
  | [] => false
  | raw :: l => seen.contains raw || duplicated (raw :: seen) l

section Verify

variable {κ ρ : Type}
variable (leadsToRoot : ρ → ChainCertificate κ → List (ChainCertificate κ) → Time → Bool)

/-- `Verifier.Verify`. -/
def Verifier.verify (v : Verifier ρ) (chain : List (ChainCertificate κ)) (nonce : Bytes)
    (now : Time) : Except VerifyError (VerifyResult κ) :=
  match chain with
  | [] => .error .emptyChain
  | leaf :: intermediates =>
    if duplicated [] ((leaf :: intermediates).map (·.raw)) then .error .chainUntrusted
    else
      match v.roots with
      | none => .error .chainUntrusted
      | some roots =>
        if ¬ leadsToRoot roots leaf intermediates now then .error .chainUntrusted
        else
          match parseKeyDescription leaf.toCertificate with
          | none => .error .chainUntrusted
          | some kd =>
            if ¬ bytesEqualConst kd.challenge nonce then .error .challengeMismatch
            else if ¬ v.signerAllowed kd.signatureDigests then .error .signerNotAllowed
            else if kd.securityLevel < 1 then .error .securityLevel
            -- a chain that says nothing about the boot has the fields of a verified one
            else if ¬ kd.hasRootOfTrust then .error .bootState
            else if kd.verifiedBootState ≠ 0 then .error .bootState
            else if ¬ kd.deviceLocked then .error .deviceUnlocked
            else if fetchedAt v.status = 0 ∨ sub now (fetchedAt v.status) > v.maxStale then
              .error .statusStale
            else if (leaf :: intermediates).any
                (fun c => revoked v.status (serialText c.serialNumber)) then .error .revoked
            else
              .ok
                { package := kd.package
                  leafPublicKey := leaf.publicKey
                  device :=
                    { osVersion := kd.osVersion
                      osPatch := kd.osPatch
                      vendorPatch := kd.vendorPatch
                      bootPatch := kd.bootPatch
                      attestationVersion := kd.attestationVersion
                      keymintVersion := kd.keymasterVersion
                      securityLevel := securityLevelString kd.securityLevel } }

/-- What the checks on an accepted chain have found. -/
structure Passed (v : Verifier ρ) (chain : List (ChainCertificate κ)) (nonce : Bytes) (now : Time)
    (leaf : ChainCertificate κ) (kd : KeyDescription) : Prop where
  first : chain.head? = some leaf
  parsed : parseKeyDescription leaf.toCertificate = some kd
  challenge : bytesEqualConst kd.challenge nonce = true
  signer : v.signerAllowed kd.signatureDigests = true
  level : 1 ≤ kd.securityLevel
  boot : kd.boot = some (true, 0)
  fetched : fetchedAt v.status ≠ 0
  fresh : sub now (fetchedAt v.status) ≤ v.maxStale
  listed : ∀ c ∈ chain, revoked v.status (serialText c.serialNumber) = false

variable {leadsToRoot}

theorem passed_of_verify {v : Verifier ρ} {chain : List (ChainCertificate κ)} {nonce : Bytes}
    {now : Time} {r : VerifyResult κ} (h : v.verify leadsToRoot chain nonce now = .ok r) :
    ∃ leaf kd, Passed v chain nonce now leaf kd := by
  unfold Verifier.verify at h
  split at h
  · cases h
  rename_i leaf intermediates
  obtain ⟨-, h⟩ := ok_of_check h
  split at h
  · cases h
  obtain ⟨-, h⟩ := ok_of_check h
  split at h
  · cases h
  rename_i kd hkd
  obtain ⟨hchallenge, h⟩ := ok_of_check h
  obtain ⟨hsigner, h⟩ := ok_of_check h
  obtain ⟨hlevel, h⟩ := ok_of_check h
  obtain ⟨hroot, h⟩ := ok_of_check h
  obtain ⟨hstate, h⟩ := ok_of_check h
  obtain ⟨hlocked, h⟩ := ok_of_check h
  obtain ⟨hfresh, h⟩ := ok_of_check h
  obtain ⟨hlisted, -⟩ := ok_of_check h
  rw [not_not] at hchallenge hsigner hroot hlocked hstate
  rw [not_or, Int.not_lt] at hfresh
  refine ⟨leaf, kd, rfl, hkd, hchallenge, hsigner, Int.not_lt.1 hlevel, ?_, hfresh.1, hfresh.2,
    fun c hc => ?_⟩
  · rw [KeyDescription.boot, if_pos hroot, hlocked, hstate]
  · rw [List.any_eq_true, not_exists] at hlisted
    exact Bool.eq_false_iff.2 fun hrev => hlisted c ⟨hc, hrev⟩

theorem Passed.status {v : Verifier ρ} {chain : List (ChainCertificate κ)} {nonce : Bytes}
    {now : Time} {leaf : ChainCertificate κ} {kd : KeyDescription}
    (h : Passed v chain nonce now leaf kd) :
    ∃ snap, v.status = some snap ∧ snap.fetchedAt ≠ 0 ∧ sub now snap.fetchedAt ≤ v.maxStale := by
  cases hs : v.status with
  | none => exact absurd (by rw [hs]; rfl) h.fetched
  | some snap =>
    have hfetched := h.fetched
    have hfresh := h.fresh
    rw [hs] at hfetched hfresh
    exact ⟨snap, rfl, hfetched, hfresh⟩

/-! ## A device -/

/-- The extension of a locked and verified device, with more entries in front of the one that
software enforces. -/
def sampleDescription (more : Bytes) : Bytes :=
  [0x30, 58 + UInt8.ofNat more.length] ++
    -- the versions and levels, the challenge and the unique id
    [2, 1, 3, 10, 1, 1, 2, 1, 4, 10, 1, 1, 4, 1, 7, 4, 0] ++
    -- the app
    [0x30, 23 + UInt8.ofNat more.length] ++ more ++
      [0xbf, 0x85, 0x45, 19, 4, 17, 0x30, 15, 0x31, 8, 0x30, 6, 4, 1, 97, 2, 1, 1, 0x31, 3, 4, 1,
        0xab] ++
    -- locked and verified
    [0x30, 14, 0xbf, 0x85, 0x40, 10, 0x30, 8, 4, 0, 1, 1, 0xff, 10, 1, 0]

def sampleLeaf (serial : Int) (more : Bytes) : ChainCertificate Unit where
  extensions := [(attestOID, sampleDescription more)]
  serialNumber := serial
  raw := []
  publicKey := ()

/-- A verifier that allows the signer of the app. -/
def sampleVerifier (status : Option StatusSnapshot) : Verifier Unit :=
  ⟨some (), status, some [['a', 'b']], 50⟩

/-- It accepts the device unless its serial number is on the list. -/
theorem exists_sample (listed : List (List Char × List Char)) (serial : Int) :
    ∃ r, (sampleVerifier (some (fetch listed 100))).verify (fun _ _ _ _ => true)
      [sampleLeaf serial []] [7] 120 =
        if revoked (some (fetch listed 100)) (serialText serial) || false then .error .revoked
        else .ok r :=
  ⟨_, rfl⟩

/-! ## Revocation -/

/-- **Which spellings revoke a key.**  A serial number in hexadecimal, of any case and with or
without `0x`, is heeded by every verifier that has it on its list, for every chain, exactly if it
has no leading zeros; and every chain is refused while there is no list. -/
theorem verify_refuses_listed {s : List Char} {ds : List (Fin 16 × Bool)} (hspells : Spells s ds) :
    ((∀ (κ ρ : Type) (leadsToRoot : ρ → ChainCertificate κ → List (ChainCertificate κ) → Time → Bool)
        (v : Verifier ρ) (chain : List (ChainCertificate κ)) (nonce : Bytes) (now : Time)
        listed fetchedAt status c, v.status = some (fetch listed fetchedAt) →
        (s, status) ∈ listed → c ∈ chain → c.serialNumber = Hex.value ds →
        ∀ r, v.verify leadsToRoot chain nonce now ≠ .ok r) ↔
      Hex.NoLeadingZeros ds) ∧
    ∀ (κ ρ : Type) (leadsToRoot : ρ → ChainCertificate κ → List (ChainCertificate κ) → Time → Bool)
      (v : Verifier ρ) (chain : List (ChainCertificate κ)) (nonce : Bytes) (now : Time),
      v.status = none → ∀ r, v.verify leadsToRoot chain nonce now ≠ .ok r := by
  refine ⟨⟨fun hrefuses => ?_, fun hzeros => ?_⟩, ?_⟩
  · -- otherwise the device with that number is accepted, whose list has nothing else
    by_contra hzeros
    obtain ⟨r, hr⟩ := exists_sample [(s, [])] (Hex.value ds)
    refine hrefuses _ _ _ _ _ _ _ [(s, [])] 100 [] _ rfl List.mem_cons_self List.mem_cons_self rfl
      r (hr.trans (if_neg fun hrev => hzeros ?_))
    obtain ⟨e, he, hkey⟩ := revoked_iff.1 (by simpa using hrev)
    rw [List.mem_singleton.1 he] at hkey
    exact (normalizeSerial_eq_iff hspells).1 hkey
  · intro κ ρ leadsToRoot v chain nonce now listed fetchedAt status c hstatus hmem hc hserial r hok
    obtain ⟨leaf, kd, hpassed⟩ := passed_of_verify hok
    have hfalse := hpassed.listed c hc
    have hkey := (normalizeSerial_eq_iff hspells).2 hzeros
    rw [hstatus, hserial, revoked_iff.2 ⟨_, hmem, hkey⟩] at hfalse
    cases hfalse
  · intro κ ρ leadsToRoot v chain nonce now hstatus r hok
    obtain ⟨leaf, kd, hpassed⟩ := passed_of_verify hok
    obtain ⟨snap, hsnap, -⟩ := hpassed.status
    rw [hstatus] at hsnap
    cases hsnap

theorem verify_refuses_listed_capital :
    (∀ r, (sampleVerifier (some (fetch [(['0', 'x', 'A', 'b'], ['R'])] 100))).verify
      (fun _ _ _ _ => true) [sampleLeaf 0xab []] [7] 120 ≠ .ok r) ∧
    ∀ r, (sampleVerifier none).verify (fun _ _ _ _ => true) [sampleLeaf 0xab []] [7] 120 ≠ .ok r := by
  have hspells := Spells.small [(10, true), (11, false)]
  constructor
  · exact (verify_refuses_listed hspells).1.2 (.inr (by decide))
      _ _ _ _ _ _ _ _ _ _ (sampleLeaf 0xab []) rfl List.mem_cons_self List.mem_cons_self rfl
  · exact (verify_refuses_listed hspells).2 _ _ _ _ _ _ _ rfl

/-- A serial number that is listed with leading zeros is not found: the chain is accepted. -/
theorem leading_zeros_not_found :
    Spells ['0', '0', 'a', 'b'] [(0, false), (0, false), (10, false), (11, false)] ∧
      (sampleLeaf 0xab []).serialNumber =
        Hex.value [(0, false), (0, false), (10, false), (11, false)] ∧
      ∃ r, (sampleVerifier (some (fetch [(['0', '0', 'a', 'b'], ['R'])] 100))).verify
        (fun _ _ _ _ => true) [sampleLeaf 0xab []] [7] 120 = .ok r :=
  ⟨.plain [(0, false), (0, false), (10, false), (11, false)], rfl, _, rfl⟩

/-! ## What an accepted chain says -/

/-- The leaf's first extension of the kind has this value. -/
def HasKeyDescription (leaf : Certificate) (raw : Bytes) : Prop :=
  leaf.extensions.find? (fun e => e.1 = attestOID) = some (attestOID, raw)

theorem HasKeyDescription.parse {leaf : Certificate} {raw : Bytes}
    (h : HasKeyDescription leaf raw) : parseKeyDescription leaf = keyDescription raw := by
  rw [HasKeyDescription] at h
  rw [parseKeyDescription, h, Option.bind_some]

theorem hasKeyDescription_of_parse {leaf : Certificate} {kd : KeyDescription}
    (h : parseKeyDescription leaf = some kd) :
    ∃ raw, HasKeyDescription leaf raw ∧ keyDescription raw = some kd := by
  obtain ⟨⟨oid, raw⟩, hfind, hkd⟩ := Option.bind_eq_some_iff.1 h
  have hoid : oid = attestOID := by simpa using List.find?_some hfind
  rw [hoid] at hfind
  exact ⟨raw, hfind, hkd⟩

theorem eq_of_bytesEqualConst {a b : Bytes} (h : bytesEqualConst a b = true) : a = b ∧ b ≠ [] := by
  rw [bytesEqualConst] at h
  split at h
  · cases h
  · rename_i hne
    refine ⟨of_decide_eq_true h, fun hb => hne (.inr ?_)⟩
    rw [hb, List.length_nil]

/-- **How the device has booted is for the trusted environment to say.**  What the other list says
about it changes nothing in what is read; and a chain is accepted only if the last entry about it in
the trusted environment's list says locked and verified, the challenge before the lists is the
nonce, a signer is allowed, the level before the lists is at least that of a trusted environment,
and there is a status list that is not old. -/
theorem boot_state_of_tee :
    (∀ leaf leaf' raw raw', HasKeyDescription leaf raw → HasKeyDescription leaf' raw' →
      SameButSoftwareRoots raw raw' → parseKeyDescription leaf = parseKeyDescription leaf') ∧
    ∀ (v : Verifier ρ) (chain : List (ChainCertificate κ)) (nonce : Bytes) (now : Time)
      (r : VerifyResult κ), v.verify leadsToRoot chain nonce now = .ok r →
      ∃ leaf raw kd, chain.head? = some leaf ∧ HasKeyDescription leaf.toCertificate raw ∧
        parseKeyDescription leaf.toCertificate = some kd ∧
        (∃ es rv, teeEnforced raw = some es ∧ (es.filter isRootOfTrust).getLast? = some rv ∧
          rootOfTrust rv.bytes = some (true, 0)) ∧
        (∃ fields lists, leading raw = some (fields, lists) ∧ fields.challenge = nonce ∧
          1 ≤ fields.securityLevel) ∧
        kd.challenge = nonce ∧ nonce ≠ [] ∧
        (∃ d ∈ kd.signatureDigests, allowed v.signers (Hex.encode d) = true) ∧
        1 ≤ kd.securityLevel ∧
        ∃ snap, v.status = some snap ∧ snap.fetchedAt ≠ 0 ∧ sub now snap.fetchedAt ≤ v.maxStale := by
  refine ⟨fun leaf leaf' raw raw' hleaf hleaf' hsame => ?_, fun v chain nonce now r hok => ?_⟩
  · rw [hleaf.parse, hleaf'.parse, hsame.keyDescription_eq]
  · obtain ⟨leaf, kd, hpassed⟩ := passed_of_verify hok
    obtain ⟨raw, hraw, hkd⟩ := hasKeyDescription_of_parse hpassed.parsed
    obtain ⟨hchallenge, hnonce⟩ := eq_of_bytesEqualConst hpassed.challenge
    obtain ⟨fields, lists, hlead, hc, hl⟩ := leading_of_keyDescription hkd
    exact ⟨leaf, raw, kd, hpassed.first, hraw, hpassed.parsed,
      boot_of_keyDescription hkd hpassed.boot,
      ⟨fields, lists, hlead, hc.symm.trans hchallenge, hl ▸ hpassed.level⟩, hchallenge, hnonce,
      List.any_eq_true.1 hpassed.signer, hpassed.level, hpassed.status⟩

/-- A malformed entry about the boot in front of the app changes nothing, and the chain is accepted
for what the trusted environment's entry says. -/
theorem boot_state_of_tee_sample :
    parseKeyDescription (sampleLeaf 0xab []).toCertificate =
        parseKeyDescription (sampleLeaf 0xab [0xbf, 0x85, 0x40, 1, 0xff]).toCertificate ∧
      ∃ es rv, teeEnforced (sampleDescription []) = some es ∧
        (es.filter isRootOfTrust).getLast? = some rv ∧ rootOfTrust rv.bytes = some (true, 0) := by
  have h := @boot_state_of_tee Unit Unit fun _ _ _ _ => true
  constructor
  · exact h.1 _ _ (sampleDescription []) (sampleDescription [0xbf, 0x85, 0x40, 1, 0xff]) rfl rfl
      ⟨_, _, _, _, _, _, _, _, rfl, rfl, rfl, rfl, rfl, rfl, rfl⟩
  · obtain ⟨leaf, raw, kd, hleaf, hraw, -, hboot, -⟩ :=
      h.2 (sampleVerifier (some (fetch [] 100))) [sampleLeaf 0xab []] [7] 120 _ rfl
    cases hleaf
    cases hraw
    exact hboot

end Verify

end Tunneld.Attest

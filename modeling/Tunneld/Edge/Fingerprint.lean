import Tunneld.Edge.HelloEncoding

/-!
# What does not change the fingerprint

A client may list its cipher suites and its extensions in any order, and put GREASE values among
them.  `Varied` is one such change, and `Same` is what two messages have in common after any number
of them: they are the same up to order once the GREASE entries are taken out.  What the parser reads
from a message depends on no more than that, because the codes are counted and sorted, and because
there is at most one extension of each type that it reads.

## Main results

* `foldl_see`: what the parser finds in the extensions is the same after such changes;
* `parseClientHello_stable`: so is its result, the fingerprint included.
-/

namespace Tunneld.Edge.Hello

/-! ## Changes -/

/-- One change of a message. -/
inductive Varied : ClientHello → ClientHello → Prop
  | ciphers {h cs} (hperm : cs.Perm h.ciphers) :
    Varied h { h with ciphers := cs }
  | extensions {h es es'} (hes : h.extensions = some es)
    (hperm : es'.Perm es) : Varied h { h with extensions := some es' }
  | greaseCipher {h a b v} (hcs : h.ciphers = a ++ b)
    (hv : isGREASE v = true) : Varied h { h with ciphers := a ++ v :: b }
  | greaseExtension {h a b t data}
    (hes : h.exts = a ++ b) (ht : isGREASE t = true) :
    Varied h { h with extensions := some (a ++ .other t data :: b) }
  | greaseVersion {h a b} (vs ws : List UInt16) {v}
    (hes : h.extensions = some (a ++ .supportedVersions (vs ++ ws) :: b))
    (hv : isGREASE v = true) :
    Varied h { h with extensions := some (a ++ .supportedVersions (vs ++ v :: ws) :: b) }

/-- An extension without its GREASE entries; a GREASE extension is nothing. -/
def Extension.bare : Extension → Option Extension
  | other t data => if isGREASE t then none else some (other t data)
  | supportedVersions versions => some (supportedVersions (nonGREASE versions))
  | serverName names => some (serverName names)
  | alpn protocols => some (alpn protocols)

/-- The messages are the same but for the order and for GREASE. -/
structure Same (h h' : ClientHello) : Prop where
  legacyVersion : h'.legacyVersion = h.legacyVersion
  ciphers : (nonGREASE h'.ciphers).Perm (nonGREASE h.ciphers)
  exts : (h'.exts.filterMap Extension.bare).Perm (h.exts.filterMap Extension.bare)

namespace Same

variable {h h' h'' : ClientHello}

theorem refl (h : ClientHello) : Same h h := ⟨rfl, .refl _, .refl _⟩

theorem trans (hs : Same h h') (hs' : Same h' h'') : Same h h'' :=
  ⟨hs'.legacyVersion.trans hs.legacyVersion, hs'.ciphers.trans hs.ciphers,
    hs'.exts.trans hs.exts⟩

theorem of_varied (hv : Varied h h') : Same h h' := by
  cases hv with
  | ciphers hperm => exact ⟨rfl, hperm.filter _, .refl _⟩
  | extensions hes hperm =>
    refine ⟨rfl, .refl _, ?_⟩
    rw [ClientHello.exts, ClientHello.exts, hes]
    exact hperm.filterMap _
  | greaseCipher hcs hv =>
    refine ⟨rfl, ?_, .refl _⟩
    rw [nonGREASE, nonGREASE, hcs]
    simp [hv]
  | greaseExtension hes ht =>
    refine ⟨rfl, .refl _, ?_⟩
    rw [hes, ClientHello.exts, Option.getD_some]
    simp [Extension.bare, ht]
  | greaseVersion vs ws hes hv =>
    refine ⟨rfl, .refl _, ?_⟩
    rw [ClientHello.exts, ClientHello.exts, hes]
    simp [Extension.bare, nonGREASE, hv]

theorem of_changes (hv : Relation.ReflTransGen Varied h h') : Same h h' := by
  induction hv with
  | refl => exact refl h
  | tail _ hstep ih => exact ih.trans (of_varied hstep)

end Same

/-! ## What is read -/

theorem bare_cases (e : Extension) :
    isGREASE e.etype = true ∧ e.bare = none ∨
      isGREASE e.etype = false ∧ ∃ e', e.bare = some e' ∧ e'.etype = e.etype := by
  cases e with
  | serverName names => exact .inr ⟨(by decide : isGREASE 0x0000 = false), _, rfl, rfl⟩
  | alpn protocols => exact .inr ⟨(by decide : isGREASE 0x0010 = false), _, rfl, rfl⟩
  | supportedVersions versions => exact .inr ⟨(by decide : isGREASE 0x002b = false), _, rfl, rfl⟩
  | other t data =>
    cases ht : isGREASE t with
    | true => exact .inl ⟨ht, by rw [Extension.bare, if_pos ht]⟩
    | false => exact .inr ⟨ht, _, by rw [Extension.bare, if_neg (by simp [ht])], rfl⟩

theorem etype_bare (es : List Extension) :
    (es.filterMap Extension.bare).map Extension.etype = nonGREASE (es.map Extension.etype) := by
  induction es with
  | nil => rfl
  | cons e es ih =>
    rw [List.map_cons, nonGREASE, List.filter_cons, ← nonGREASE, ← ih]
    obtain ⟨hg, hb⟩ | ⟨hg, e', hb, hty⟩ := bare_cases e
    · rw [List.filterMap_cons_none hb, if_neg (by simp [hg])]
    · rw [List.filterMap_cons_some hb, if_pos (by simp [hg]), List.map_cons, hty]

/-- What is read from an extension, where GREASE extensions have nothing and the GREASE versions do
not matter, is read from the bare extension. -/
theorem bind_bare {β : Type} {o : Extension → Option β}
    (hother : ∀ t data, isGREASE t = true → o (.other t data) = none)
    (hversions : ∀ vs, o (.supportedVersions (nonGREASE vs)) = o (.supportedVersions vs))
    (e : Extension) : o e = e.bare.bind o := by
  cases e with
  | serverName names => rfl
  | alpn protocols => rfl
  | supportedVersions versions => exact (hversions versions).symm
  | other t data =>
    rw [Extension.bare]
    split
    · rename_i ht
      exact hother t data ht
    · rfl

theorem sigAlgs?_of_grease {t : UInt16} (data : Bytes) (ht : isGREASE t = true) :
    (Extension.other t data).sigAlgs? = none := by
  refine if_neg fun h => ?_
  rw [h] at ht
  exact absurd ht (by decide)

theorem maxVersion_nonGREASE (vs : List UInt16) : maxVersion (nonGREASE vs) = maxVersion vs := by
  rw [maxVersion, maxVersion, nonGREASE, nonGREASE, List.filter_filter]
  simp only [Bool.and_self]

/-- The largest version, as something that is read from one extension. -/
theorem maxVersion_versions (h : ClientHello) :
    maxVersion h.versions = (h.exts.findSome? fun e => e.versions?.map maxVersion).getD 0 := by
  have hmap := List.map_findSome? (l := h.exts) (f := Extension.versions?) (g := maxVersion)
  rw [ClientHello.versions, show (fun e => e.versions?.map maxVersion) =
    Option.map maxVersion ∘ Extension.versions? from rfl, ← hmap]
  cases h.exts.findSome? Extension.versions? <;> rfl

/-- A list of at most one element has no other order. -/
theorem eq_of_perm {β : Type} {l l' : List β} (hp : l'.Perm l) (hlen : l.length ≤ 1) : l' = l := by
  rcases l with _ | ⟨b, _ | ⟨c, l⟩⟩
  · exact hp.eq_nil
  · exact List.perm_singleton.1 hp
  · simp at hlen

namespace Same

variable {h h' : ClientHello} (hs : Same h h')

include hs

theorem etypes : (nonGREASE (h'.exts.map Extension.etype)).Perm
    (nonGREASE (h.exts.map Extension.etype)) := by
  rw [← etype_bare, ← etype_bare]
  exact hs.exts.map _

theorem distinct (hd : h.Distinct) : h'.Distinct := hs.etypes.nodup_iff.2 hd

/-- What is read from an extension of one type, and does not depend on the GREASE entries. -/
theorem findSome?_eq (hd : h.Distinct) {β : Type} {o : Extension → Option β} {t : UInt16}
    (ht : isGREASE t = false) (ho : ∀ e, (o e).isSome = true → e.etype = t)
    (hbare : ∀ e, o e = e.bare.bind o) : h'.exts.findSome? o = h.exts.findSome? o := by
  have hmap : ∀ es : List Extension, es.filterMap o = (es.filterMap Extension.bare).filterMap o :=
    fun es => by rw [List.filterMap_filterMap, ← funext hbare]
  have hperm : (h'.exts.filterMap o).Perm (h.exts.filterMap o) := by
    rw [hmap, hmap h.exts]
    exact hs.exts.filterMap o
  rw [← List.head?_filterMap, ← List.head?_filterMap,
    eq_of_perm hperm (length_filterMap_le hd ht ho)]

/-- **What the parser has found is the same**, but for the order of the extensions. -/
theorem foldl_see (hd : h.Distinct) :
    h'.exts.foldl Seen.see .empty =
      { h.exts.foldl Seen.see .empty with extIDs := nonGREASE (h'.exts.map Extension.etype) } := by
  have hnames := hs.findSome?_eq hd (by decide) (fun _ => ClientHello.etype_of_names)
    (bind_bare (fun _ _ _ => rfl) fun _ => rfl)
  have hprotocols := hs.findSome?_eq hd (by decide) (fun _ => ClientHello.etype_of_protocols)
    (bind_bare (fun _ _ _ => rfl) fun _ => rfl)
  have hsig := hs.findSome?_eq hd (by decide) (fun _ => ClientHello.etype_of_sigAlgs)
    (bind_bare (fun _ => sigAlgs?_of_grease) fun _ => rfl)
  have hversions := hs.findSome?_eq hd (o := fun e => e.versions?.map maxVersion) (by decide)
    (fun _ he => ClientHello.etype_of_versions (by simpa using he))
    (bind_bare (fun _ _ _ => rfl) fun vs => congrArg some (maxVersion_nonGREASE vs))
  rw [ClientHello.foldl_see hd, ClientHello.foldl_see (hs.distinct hd)]
  simp only [ClientHello.hostName, ClientHello.protocol, maxVersion_versions]
  rw [hnames, hprotocols, hsig, hversions]

end Same

/-! ## The fingerprint -/

theorem sortedHex_perm {vs ws : List UInt16} (hp : vs.Perm ws) : sortedHex vs = sortedHex ws :=
  Strings.sortStrings_perm (hp.map hex4)

theorem ja4Extensions_perm {ids ids' : List UInt16} (hp : ids'.Perm ids) (sigAlgs : List UInt16) :
    ja4Extensions ids' sigAlgs = ja4Extensions ids sigAlgs := by
  rw [ja4Extensions, ja4Extensions, sortedHex_perm (hp.filter _)]

/-- The order of the ciphers and of the extensions does not matter. -/
theorem infoOf_perm (sha : Sha) (legacyVer : UInt16) {cs cs' ids : List UInt16} {seen : Seen}
    (hcs : cs'.Perm cs) (hids : ids.Perm seen.extIDs) :
    infoOf sha legacyVer cs' { seen with extIDs := ids } = infoOf sha legacyVer cs seen := by
  simp only [infoOf, computeJA4, hcs.length_eq, hids.length_eq, sortedHex_perm hcs,
    ja4Extensions_perm hids]

/-- **The fingerprint is stable.**  Reordering the cipher suites and the extensions, and putting
GREASE suites, extensions and versions anywhere among them, changes nothing of the result. -/
theorem parseClientHello_stable (sha : Sha) {h h' : ClientHello} (hwf : h.WellFormed)
    (hd : h.Distinct) (hv : Relation.ReflTransGen Varied h h') (hwf' : h'.WellFormed) :
    ∃ info, parseClientHello sha h.encode = .ok info ∧
      parseClientHello sha h'.encode = .ok info := by
  have hs := Same.of_changes hv
  obtain ⟨ja4, hok⟩ := infoOf_ok sha h.legacyVersion (nonGREASE h.ciphers)
    (h.exts.foldl Seen.see .empty)
  have hids : (nonGREASE (h'.exts.map Extension.etype)).Perm
      (h.exts.foldl Seen.see .empty).extIDs := by
    rw [ClientHello.foldl_see hd]
    exact hs.etypes
  refine ⟨_, (ClientHello.parse_encode hwf).trans hok, ?_⟩
  rw [ClientHello.parse_encode hwf', hs.foldl_see hd, hs.legacyVersion,
    infoOf_perm sha h.legacyVersion hs.ciphers hids, hok]

/-- The message `modern` with other ciphers and extensions. -/
def modernWith (cs : List UInt16) (es : List Extension) : ClientHello :=
  { modern with
    ciphers := cs
    extensions := some es }

/-- The ciphers and the extensions of `modern` in another order, and one more GREASE cipher,
extension and version. -/
def shuffled : ClientHello :=
  modernWith [0x3a3a, 0x1301, 0x2a2a]
    [.alpn [[104, 50]], .supportedVersions [0x2a2a, 0x0303, 0x4a4a, 0x0304],
      .other 0x5a5a [1, 2, 3], .serverName [(0, [97])], .other 0x1a1a []]

theorem parseClientHello_stable_shuffled :
    ∃ info, parseClientHello ⟨fun _ => List.replicate 32 0, fun _ => rfl⟩ modern.encode = .ok info ∧
      parseClientHello ⟨fun _ => List.replicate 32 0, fun _ => rfl⟩ shuffled.encode = .ok info := by
  have hwf : shuffled.WellFormed :=
    ⟨rfl, by decide, by decide, by decide, by decide, by decide, by decide⟩
  refine parseClientHello_stable _ modern_wellFormed (by decide) ?_ hwf
  have hciphers : Varied modern (modernWith [0x1301, 0x2a2a] modern.exts) :=
    Varied.ciphers (h := modern) (.swap _ _ _)
  have hcipher : Varied (modernWith [0x1301, 0x2a2a] modern.exts)
      (modernWith [0x3a3a, 0x1301, 0x2a2a] modern.exts) :=
    Varied.greaseCipher (h := modernWith [0x1301, 0x2a2a] modern.exts) (a := []) rfl (by decide)
  have hexts : Varied (modernWith [0x3a3a, 0x1301, 0x2a2a] modern.exts)
      (modernWith [0x3a3a, 0x1301, 0x2a2a] [.alpn [[104, 50]],
        .supportedVersions [0x2a2a, 0x0303, 0x0304], .serverName [(0, [97])], .other 0x1a1a []]) :=
    Varied.extensions (h := modernWith [0x3a3a, 0x1301, 0x2a2a] modern.exts) rfl (by decide)
  have hext : Varied (modernWith [0x3a3a, 0x1301, 0x2a2a] [.alpn [[104, 50]],
        .supportedVersions [0x2a2a, 0x0303, 0x0304], .serverName [(0, [97])], .other 0x1a1a []])
      (modernWith [0x3a3a, 0x1301, 0x2a2a] [.alpn [[104, 50]],
        .supportedVersions [0x2a2a, 0x0303, 0x0304], .other 0x5a5a [1, 2, 3],
        .serverName [(0, [97])], .other 0x1a1a []]) :=
    Varied.greaseExtension (h := modernWith _ _)
      (a := [.alpn [[104, 50]], .supportedVersions [0x2a2a, 0x0303, 0x0304]]) rfl (by decide)
  have hversion : Varied (modernWith [0x3a3a, 0x1301, 0x2a2a] [.alpn [[104, 50]],
        .supportedVersions [0x2a2a, 0x0303, 0x0304], .other 0x5a5a [1, 2, 3],
        .serverName [(0, [97])], .other 0x1a1a []]) shuffled :=
    Varied.greaseVersion (h := modernWith _ _) (a := [.alpn [[104, 50]]])
      [0x2a2a, 0x0303] [0x0304] rfl (by decide)
  exact ((((Relation.ReflTransGen.single hciphers).tail hcipher).tail hexts).tail hext).tail hversion

end Tunneld.Edge.Hello

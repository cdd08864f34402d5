import Tunneld.Ban.Engine
import Tunneld.Lib.Netip

/-!
# Which addresses are banned

The engine looks an address up in a table of prefixes.  The operator has written lines: addresses,
ranges and countries, in several files, and the countries stand for the ranges of a database.  An
address is found in the table just if one of the lines bans it (`Libs.Banned`).

What a build collects from the lines is the same whatever the order of the lines and of the files
is, and whatever was collected before: the prefixes that cover an address, and the countries that
are wanted.  `Collects` is what the two have in common, and the loops are gone through once for both
(`Collects.buildFiles_iff`).

The addresses are those of `Tunneld.Lib.Netip`.  How they are written, letter case and the reader of
the database stay open; the lookup in the table and the conversion of a range to prefixes are
assumed to be exact (`Libs`).

## Main results

* `Libs.parseLine_iff`: the lines that are read as an entry, by their text;
* `Collects.all_iff`: what is collected from all files comes from an entry;
* `Libs.match_iff_banned`: what the engine matches is what the files ban.
-/

namespace Tunneld.Ban

open Netip Words

/-- What is used of other libraries. -/
structure Libs where
  toLower : Text → Text
  toUpper : Text → Text
  parseAddr : Text → Option Addr
  parsePrefix : Text → Option Prefix
  csvRecords : Text → List (Option (List Text))
  rangePrefixes : Addr → Addr → List Prefix
  /-- `Table.Lookup`. -/
  lookup : List (Prefix × Source) → Addr → Option Source
  /-- The prefixes of a range cover just what is in it. -/
  covers_rangePrefixes : ∀ start stop a, rangeValid start stop = true →
    ((∃ p ∈ rangePrefixes start stop, p.covers a = true) ↔ inRange start stop a = true)
  /-- An entry is found just if one covers the address. -/
  lookup_isSome : ∀ table a, (lookup table a).isSome = true ↔ ∃ e ∈ table, e.1.covers a = true

namespace Libs

variable (libs : Libs)

/-- The functions that a build uses. -/
def net : Net Addr Prefix where
  toLower := libs.toLower
  toUpper := libs.toUpper
  parseAddr := libs.parseAddr
  unmap := Addr.unmap
  hostPrefix a := prefixFrom a a.bitLen
  parsePrefix := libs.parsePrefix
  addr := Prefix.addr
  bits := Prefix.bits
  is4In6 := Addr.is4In6
  prefixFrom := Netip.prefixFrom
  masked := Prefix.masked
  csvRecords := libs.csvRecords
  rangeValid := Netip.rangeValid
  rangePrefixes := libs.rangePrefixes

/-- `Engine.Load`: the error, if there is one, and the snapshot that is used then. -/
def load (current : Snapshot Prefix) (required files : List String) (csv : String)
    (read : String → Read) : Except Failure Unit × Snapshot Prefix :=
  match build libs.net required files csv read with
  | .ok snap => (.ok (), snap)
  | .error e => (.error e, current)

/-- `Engine.Match`. -/
def engineMatch (current : Snapshot Prefix) (ip : Addr) : Option Source := libs.lookup current.table ip

/-! ## What the lines say -/

/-- A line is an entry: the keyword, in any letter case, and the value, with blanks between and
around them, and behind them nothing or a comment. -/
def IsEntry (line : Text) (kind : Kind) (value : Text) : Prop :=
  ∃ before keyword between after comment,
    line = before ++ (keyword ++ (between ++ (value ++ after))) ++ comment ∧
      before.all isSpace ∧ IsWord keyword ∧ '#' ∉ keyword ∧ between.all isSpace ∧ between ≠ [] ∧
      IsWord value ∧ '#' ∉ value ∧ after.all isSpace ∧ (∀ c ∈ comment.head?, c = '#') ∧
      libs.toLower keyword = kind.keyword

/-- Some line of the files that were read is this entry. -/
def HasEntry (reads : List (String × Read)) (kind : Kind) (value : Text) : Prop :=
  ∃ path t line, (path, Read.data t) ∈ reads ∧ line ∈ t.splitOn '\n' ∧ libs.IsEntry line kind value

/-- What an `ip` or a `cidr` entry covers: the address without its zone, IPv4 if it is mapped to
IPv6; and a range, which if it is mapped has at least 96 bits. -/
def EntryCovers (ip : Addr) : Kind → Text → Prop
  | .ip, value => ∃ x, libs.parseAddr value = some x ∧ x.unmap.withoutZone = ip.withoutZone
  | .cidr, value => ∃ p, libs.parsePrefix value = some p ∧
      if p.addr.is4In6 = true then
        96 ≤ p.bits ∧ (Netip.prefixFrom p.addr.unmap (p.bits - 96)).covers ip = true
      else p.covers ip = true
  | .country, _ | .tunnelName, _ => False

/-- A row of the database has this country, in upper case, and this range, which is valid. -/
def IsRow (row : Option (List Text)) (cc : Text) (s e : Addr) : Prop :=
  ∃ start stop country more, row = some (start :: stop :: country :: more) ∧
    libs.parseAddr (trimSpace start) = some s ∧ libs.parseAddr (trimSpace stop) = some e ∧
    libs.toUpper (trimSpace country) = cc ∧ rangeValid s e = true

/-- The address is banned by an `ip` or a `cidr` line, or by a `country` line and a row that is of
the same country but for letter case. -/
def Banned (reads : List (String × Read)) (database : Text) (ip : Addr) : Prop :=
  (∃ kind value, libs.HasEntry reads kind value ∧ libs.EntryCovers ip kind value) ∨
    ∃ country, libs.HasEntry reads .country country ∧
      ∃ row ∈ libs.csvRecords database, ∃ s e, libs.IsRow row (libs.toUpper country) s e ∧
        inRange s e ip = true

end Libs

/-! ## Reading a line -/

theorem Kind.ofText_eq_some {t : Text} {kind : Kind} :
    Kind.ofText t = some kind ↔ t = kind.keyword := by
  constructor
  · intro h
    simpa using List.find?_some h
  · rintro rfl
    cases kind <;> rfl

theorem parseLine_eq_ok {φ α : Type} {net : Net α φ} {line value : Text} {kind : Kind} :
    parseLine net line = .ok (some (kind, value)) ↔ ∃ keyword,
      fields (line.takeWhile (· ≠ '#')) = [keyword, value] ∧
        net.toLower keyword = kind.keyword := by
  rw [← fields_trimSpace]
  unfold parseLine
  generalize trimSpace (line.takeWhile (· ≠ '#')) = l
  dsimp only
  constructor
  · intro h
    split at h
    · cases h
    · split at h
      · rename_i keyword value' hfields
        split at h
        · rename_i k hk
          cases h
          exact ⟨keyword, hfields, Kind.ofText_eq_some.1 hk⟩
        · cases h
      · cases h
  · rintro ⟨keyword, hfields, hkind⟩
    have hne : l ≠ [] := by
      rintro rfl
      cases hfields
    simp only [if_neg hne, hfields, Kind.ofText_eq_some.2 hkind]

theorem not_mem_of_blank {l : Text} (h : l.all isSpace) : '#' ∉ l := by
  intro hmem
  have hspace := List.all_eq_true.1 h _ hmem
  exact absurd hspace (by decide)

/-- Just the lines that are an entry are read as one. -/
theorem Libs.parseLine_iff {libs : Libs} {line value : Text} {kind : Kind} :
    parseLine libs.net line = .ok (some (kind, value)) ↔ libs.IsEntry line kind value := by
  rw [parseLine_eq_ok]
  constructor
  · rintro ⟨keyword, hfields, hkind⟩
    obtain ⟨before, between, after, heq, hbefore, hk, hbetween, hne, hv, hafter⟩ :=
      fields_eq_pair_iff.1 hfields
    have hhash : '#' ∉ line.takeWhile (· ≠ '#') := fun h => by simpa using List.mem_takeWhile_imp h
    rw [heq] at hhash
    refine ⟨before, keyword, between, after, line.dropWhile (· ≠ '#'), ?_, hbefore, hk,
      fun h => hhash (by simp [h]), hbetween, hne, hv, fun h => hhash (by simp [h]), hafter,
      fun c hc => ?_, hkind⟩
    · rw [← heq, List.takeWhile_append_dropWhile]
    · have hhead := List.head?_dropWhile_not (· ≠ '#') line
      rw [Option.mem_def.1 hc] at hhead
      simpa using hhead
  · rintro ⟨before, keyword, between, after, comment, rfl, hbefore, hk, hkeyword, hbetween, hne, hv,
      hvalue, hafter, hcomment, hkind⟩
    have hbody : ∀ c ∈ before ++ (keyword ++ (between ++ (value ++ after))),
        decide (c ≠ '#') = true := by
      intro c hc
      refine decide_eq_true fun hhash => ?_
      rw [hhash] at hc
      simp only [List.mem_append] at hc
      simp [hkeyword, hvalue, not_mem_of_blank hbefore, not_mem_of_blank hbetween,
        not_mem_of_blank hafter] at hc
    have hrest : comment.takeWhile (· ≠ '#') = [] := by
      cases comment with
      | nil => rfl
      | cons c comment => exact List.takeWhile_cons_of_neg (by simp [hcomment c rfl])
    refine ⟨keyword, ?_, hkind⟩
    rw [List.takeWhile_append_of_pos hbody, hrest, List.append_nil]
    exact fields_eq_pair_iff.2
      ⟨before, between, after, rfl, hbefore, hk, hbetween, hne, hv, hafter⟩

/-! ## Collecting the lines -/

section Collect

variable {φ α : Type} {net : Net α φ}

/-- The property comes from entries, each by itself. -/
structure Collects (net : Net α φ) (P : Parsed φ → Prop) (R : Kind → Text → Prop) : Prop where
  empty : ¬ P .empty
  entry : ∀ p path line kind value, P (p.addEntry net path line kind value) ↔ P p ∨ R kind value
  merge : ∀ p q : Parsed φ, P ⟨p.prefixes ++ q.prefixes, copy p.countries q.countries,
    copy p.names q.names⟩ ↔ P p ∨ P q

variable {P : Parsed φ → Prop} {R : Kind → Text → Prop}

/-- A line of a file, with its number. -/
def takeLine (net : Net α φ) (path : String) (p : Parsed φ) (l : Text × Nat) : Parsed φ :=
  match parseLine net l.1 with
  | .ok (some (kind, value)) => p.addEntry net path l.2 kind value
  | .ok none | .error _ => p

theorem parseFile_eq (path : String) (data : Text) :
    parseFile net path data = ((data.splitOn '\n').zipIdx 1).foldl (takeLine net path) .empty := rfl

/-- A line counts if it has an entry. -/
theorem Collects.takeLine_iff (h : Collects net P R) (path : String) (p : Parsed φ)
    (l : Text × Nat) : P (takeLine net path p l) ↔
      P p ∨ ∃ kind value, parseLine net l.1 = .ok (some (kind, value)) ∧ R kind value := by
  rw [takeLine]
  cases hl : parseLine net l.1 with
  | error e => simp
  | ok entry =>
    cases entry with
    | none => simp
    | some e =>
      obtain ⟨kind, value⟩ := e
      simp [h.entry]

theorem Collects.foldl_iff (h : Collects net P R) (path : String) (ls : List (Text × Nat))
    (p : Parsed φ) : P (ls.foldl (takeLine net path) p) ↔
      P p ∨ ∃ line ∈ ls.map Prod.fst, ∃ kind value,
        parseLine net line = .ok (some (kind, value)) ∧ R kind value := by
  induction ls generalizing p with
  | nil => simp
  | cons l ls ih => simp only [List.foldl_cons, ih, h.takeLine_iff, List.map_cons, List.mem_cons,
      exists_eq_or_imp, or_assoc]

theorem Collects.parseFile_iff (h : Collects net P R) (path : String) (data : Text) :
    P (parseFile net path data) ↔ ∃ line ∈ data.splitOn '\n', ∃ kind value,
      parseLine net line = .ok (some (kind, value)) ∧ R kind value := by
  rw [parseFile_eq, h.foldl_iff, List.zipIdx_map_fst]
  exact or_iff_right h.empty

theorem Collects.buildFiles_iff (h : Collects net P R) {required : List String}
    {reads : List (String × Read)} {acc acc' : Parsed φ}
    (hok : buildFiles net required acc reads = .ok acc') :
    P acc' ↔ P acc ∨ ∃ kind value, (∃ path t line, (path, Read.data t) ∈ reads ∧
      line ∈ t.splitOn '\n' ∧ parseLine net line = .ok (some (kind, value))) ∧ R kind value := by
  induction reads generalizing acc with
  | nil =>
    cases hok
    simp
  | cons r reads ih =>
    obtain ⟨path, r⟩ := r
    rw [buildFiles] at hok
    split at hok
    · rename_i acc₁ hadd
      rw [ih hok]
      cases r with
      | data t =>
        cases hadd
        rw [h.merge, h.parseFile_iff, or_assoc]
        refine or_congr_right ⟨?_, ?_⟩
        · rintro (⟨line, hline, kind, value, hparse, hR⟩ |
            ⟨kind, value, ⟨path', t', line, hmem, hline, hparse⟩, hR⟩)
          · exact ⟨kind, value, ⟨path, t, line, List.mem_cons_self, hline, hparse⟩, hR⟩
          · exact ⟨kind, value, ⟨path', t', line, .tail _ hmem, hline, hparse⟩, hR⟩
        · rintro ⟨kind, value, ⟨path', t', line, hmem, hline, hparse⟩, hR⟩
          rcases List.mem_cons.1 hmem with heq | hmem
          · cases heq
            exact .inl ⟨line, hline, kind, value, hparse, hR⟩
          · exact .inr ⟨kind, value, ⟨path', t', line, hmem, hline, hparse⟩, hR⟩
      | notExist =>
        have hsame : acc₁ = acc := by
          rw [addFile] at hadd
          split at hadd
          · cases hadd
          · exact (Except.ok.inj hadd).symm
        rw [hsame]
        simp
      | hard => cases hadd
    · cases hok

/-- All files are gone through from the start. -/
theorem Collects.all_iff (h : Collects net P R) {required : List String}
    {reads : List (String × Read)} {acc : Parsed φ}
    (hok : buildFiles net required .empty reads = .ok acc) :
    P acc ↔ ∃ kind value, (∃ path t line, (path, Read.data t) ∈ reads ∧
      line ∈ t.splitOn '\n' ∧ parseLine net line = .ok (some (kind, value))) ∧ R kind value :=
  (h.buildFiles_iff hok).trans (or_iff_right h.empty)

end Collect

/-! ## What is collected -/

theorem mem_put {m : List (Text × Source)} {k cc : Text} {v : Source} :
    cc ∈ (put m k v).map Prod.fst ↔ cc ∈ m.map Prod.fst ∨ cc = k := by
  simp only [put, List.map_cons, List.mem_cons, List.mem_map, List.mem_filter]
  constructor
  · rintro (rfl | ⟨e, ⟨hmem, -⟩, rfl⟩)
    · exact .inr rfl
    · exact .inl ⟨e, hmem, rfl⟩
  · rintro (⟨e, hmem, rfl⟩ | rfl)
    · by_cases hk : e.1 = k
      · exact .inl hk
      · exact .inr ⟨e, ⟨hmem, by simpa using hk⟩, rfl⟩
    · exact .inl rfl

theorem mem_copy {m m' : List (Text × Source)} {cc : Text} :
    cc ∈ (copy m m').map Prod.fst ↔ cc ∈ m.map Prod.fst ∨ cc ∈ m'.map Prod.fst := by
  induction m' with
  | nil => simp [copy]
  | cons e m' ih =>
    have hcons : copy m (e :: m') = put (copy m m') e.1 e.2 := rfl
    rw [hcons, mem_put, ih, List.map_cons, List.mem_cons, or_assoc, or_comm (a := cc = e.1)]

section Entry

variable {φ α : Type} {net : Net α φ}

/-- The prefix that an entry adds. -/
def entryPrefix (net : Net α φ) : Kind → Text → Option φ
  | .ip, value => (net.parseAddr value).map fun addr => net.hostPrefix (net.unmap addr)
  | .cidr, value => (net.parsePrefix value).bind fun pfx =>
      if net.is4In6 (net.addr pfx) then
        if net.bits pfx < 96 then none
        else some (net.masked (net.prefixFrom (net.unmap (net.addr pfx)) (net.bits pfx - 96)))
      else some (net.masked pfx)
  | .country, _ | .tunnelName, _ => none

theorem addEntry_prefixes (p : Parsed φ) (path : String) (line : Nat) (kind : Kind) (value : Text) :
    ∃ src, (p.addEntry net path line kind value).prefixes =
      p.prefixes ++ (entryPrefix net kind value).toList.map fun q => (q, src) := by
  cases kind with
  | ip =>
    refine ⟨⟨path, line, .ip, value⟩, ?_⟩
    rw [Parsed.addEntry, entryPrefix]
    cases net.parseAddr value with
    | none => simp
    | some addr => rfl
  | cidr =>
    refine ⟨⟨path, line, .cidr, value⟩, ?_⟩
    rw [Parsed.addEntry, entryPrefix]
    cases net.parsePrefix value with
    | none => simp
    | some pfx =>
      dsimp only [Option.bind_some]
      split
      · split
        · simp
        · rfl
      · rfl
  | country => exact ⟨⟨path, line, .country, value⟩, (List.append_nil _).symm⟩
  | tunnelName => exact ⟨⟨path, line, .tunnelName, value⟩, (List.append_nil _).symm⟩

theorem addEntry_countries (p : Parsed φ) (path : String) (line : Nat) {kind : Kind} (value : Text)
    (h : kind ≠ .country) : (p.addEntry net path line kind value).countries = p.countries := by
  cases kind with
  | ip =>
    rw [Parsed.addEntry]
    split <;> rfl
  | cidr =>
    rw [Parsed.addEntry]
    split
    · rfl
    · split
      · split <;> rfl
      · rfl
  | country => exact absurd rfl h
  | tunnelName => rfl

end Entry

namespace Libs

variable {libs : Libs}

theorem entryPrefix_covers (ip : Addr) (kind : Kind) (value : Text) :
    (∃ q, entryPrefix libs.net kind value = some q ∧ q.covers ip = true) ↔
      libs.EntryCovers ip kind value := by
  cases kind with
  | ip =>
    simp only [entryPrefix, net, Option.map_eq_some_iff, EntryCovers]
    constructor
    · rintro ⟨q, ⟨x, hx, rfl⟩, hcovers⟩
      exact ⟨x, hx, (covers_prefixFrom_bitLen _ _).1 hcovers⟩
    · rintro ⟨x, hx, hsame⟩
      exact ⟨_, ⟨x, hx, rfl⟩, (covers_prefixFrom_bitLen _ _).2 hsame⟩
  | cidr =>
    have hentry : entryPrefix libs.net .cidr value = (libs.parsePrefix value).bind fun p =>
        if p.addr.is4In6 = true then
          if p.bits < 96 then none else some (Netip.prefixFrom p.addr.unmap (p.bits - 96)).masked
        else some p.masked := rfl
    simp only [hentry, Option.bind_eq_some_iff, EntryCovers]
    constructor
    · rintro ⟨q, ⟨p, hp, hq⟩, hcovers⟩
      refine ⟨p, hp, ?_⟩
      split at hq
      · rename_i hmapped
        rw [if_pos hmapped]
        split at hq
        · cases hq
        · rename_i hbits
          cases hq
          rw [Prefix.covers_masked] at hcovers
          exact ⟨Nat.not_lt.1 hbits, hcovers⟩
      · rename_i hmapped
        rw [if_neg hmapped]
        cases hq
        rwa [Prefix.covers_masked] at hcovers
    · rintro ⟨p, hp, h⟩
      split at h
      · rename_i hmapped
        refine ⟨_, ⟨p, hp, ?_⟩, (Prefix.covers_masked _ ip).trans h.2⟩
        rw [if_pos hmapped, if_neg (Nat.not_lt.2 h.1)]
      · rename_i hmapped
        exact ⟨_, ⟨p, hp, if_neg hmapped⟩, (Prefix.covers_masked p ip).trans h⟩
  | country => simp [entryPrefix, EntryCovers]
  | tunnelName => simp [entryPrefix, EntryCovers]

/-- The prefixes that cover an address come from the entries that do. -/
theorem collects_covers (ip : Addr) : Collects libs.net
    (fun p => ∃ e ∈ p.prefixes, e.1.covers ip = true) (libs.EntryCovers ip) where
  empty := by simp [Parsed.empty]
  merge p q := by simp only [List.mem_append, or_and_right, exists_or]
  entry p path line kind value := by
    obtain ⟨src, hadd⟩ := addEntry_prefixes p path line kind value
    rw [hadd, ← entryPrefix_covers]
    simp [or_and_right, exists_or]

/-- The countries that are wanted come from the entries that want them. -/
theorem collects_countries (cc : Text) : Collects libs.net
    (fun p => cc ∈ p.countries.map Prod.fst)
    (fun kind value => kind = .country ∧ cc = libs.toUpper value) where
  empty := by simp [Parsed.empty]
  merge p q := mem_copy
  entry p path line kind value := by
    by_cases hkind : kind = .country
    · rw [hkind]
      simp only [true_and]
      exact mem_put
    · rw [addEntry_countries p path line value hkind]
      simp [hkind]

/-! ## The countries -/

/-- A row gives its prefixes if its country is wanted. -/
theorem countryRow_iff (wanted : List Text) (row : Option (List Text)) (cc : Text)
    (ps : List Prefix) : (countryRow libs.net wanted row).2 = some (cc, ps) ↔
      cc ∈ wanted ∧ ∃ s e, libs.IsRow row cc s e ∧ libs.rangePrefixes s e = ps := by
  constructor
  · intro h
    unfold countryRow at h
    split at h
    · rename_i start stop country more
      split at h
      · rename_i s e hs he
        dsimp only at h
        split at h
        · cases h
        · rename_i hwanted
          split at h
          · rename_i hvalid
            cases h
            exact ⟨not_not.1 hwanted, s, e, ⟨start, stop, country, more, rfl, hs, he, rfl, hvalid⟩,
              rfl⟩
          · cases h
      · cases h
    · cases h
  · rintro ⟨hwanted, s, e, ⟨start, stop, country, more, rfl, hs, he, rfl, hvalid⟩, rfl⟩
    have hs : libs.net.parseAddr (trimSpace start) = some s := hs
    have he : libs.net.parseAddr (trimSpace stop) = some e := he
    have hwanted : libs.net.toUpper (trimSpace country) ∈ wanted := hwanted
    have hvalid : libs.net.rangeValid s e = true := hvalid
    simp only [countryRow, hs, he, if_neg (not_not.2 hwanted), if_pos hvalid]
    rfl

theorem covers_countryPrefixes (countries : List (Text × Source)) (byCC : List (Text × List Prefix))
    (ip : Addr) : (∃ e ∈ countryPrefixes countries byCC, e.1.covers ip = true) ↔
      ∃ c ∈ byCC, c.1 ∈ countries.map Prod.fst ∧ ∃ p ∈ c.2, p.covers ip = true := by
  have hkey : ∀ cc, cc ∈ countries.map Prod.fst ↔ (countries.lookup cc).isSome = true := by
    intro cc
    rw [List.lookup_isSome_iff, List.mem_map]
    exact exists_congr fun e => and_congr_right fun _ => by rw [beq_iff_eq, eq_comm]
  simp only [countryPrefixes, List.mem_flatMap, hkey]
  constructor
  · rintro ⟨e, ⟨c, hc, he⟩, hcovers⟩
    cases hsrc : countries.lookup c.1 with
    | none =>
      rw [hsrc] at he
      exact absurd he List.not_mem_nil
    | some src =>
      rw [hsrc] at he
      obtain ⟨p, hp, rfl⟩ := List.mem_map.1 he
      exact ⟨c, hc, by rw [hsrc]; rfl, p, hp, hcovers⟩
  · rintro ⟨c, hc, hsome, p, hp, hcovers⟩
    obtain ⟨src, hsrc⟩ := Option.isSome_iff_exists.1 hsome
    refine ⟨(p, src), ⟨c, hc, ?_⟩, hcovers⟩
    rw [hsrc]
    exact List.mem_map.2 ⟨p, hp, rfl⟩

theorem covers_expandCountries {t : Text} {wanted : List Text} {byCC : List (Text × List Prefix)}
    (h : expandCountries libs.net t wanted = some byCC) (ip : Addr) :
    (∃ c ∈ byCC, c.1 ∈ wanted ∧ ∃ p ∈ c.2, p.covers ip = true) ↔
      ∃ cc ∈ wanted, ∃ row ∈ libs.csvRecords t, ∃ s e, libs.IsRow row cc s e ∧
        inRange s e ip = true := by
  have hbyCC : byCC = ((libs.csvRecords t).map (countryRow libs.net wanted)).filterMap (·.2) := by
    unfold expandCountries at h
    dsimp only at h
    split at h
    · exact (Option.some.inj h).symm
    · cases h
  have hmem : ∀ c, c ∈ byCC ↔
      ∃ row ∈ libs.csvRecords t, (countryRow libs.net wanted row).2 = some c := by
    intro c
    rw [hbyCC, List.filterMap_map, List.mem_filterMap]
    rfl
  constructor
  · rintro ⟨⟨cc, ps⟩, hc, hwanted, p, hp, hcovers⟩
    obtain ⟨row, hrow, hgives⟩ := (hmem _).1 hc
    obtain ⟨-, s, e, hisRow, rfl⟩ := (countryRow_iff _ _ _ _).1 hgives
    obtain ⟨-, -, -, -, -, -, -, -, hvalid⟩ := id hisRow
    exact ⟨cc, hwanted, row, hrow, s, e, hisRow,
      (libs.covers_rangePrefixes s e ip hvalid).1 ⟨p, hp, hcovers⟩⟩
  · rintro ⟨cc, hwanted, row, hrow, s, e, hisRow, hin⟩
    obtain ⟨-, -, -, -, -, -, -, -, hvalid⟩ := id hisRow
    exact ⟨(cc, libs.rangePrefixes s e), (hmem _).2 ⟨row, hrow,
      (countryRow_iff _ _ _ _).2 ⟨hwanted, s, e, hisRow, rfl⟩⟩, hwanted,
      (libs.covers_rangePrefixes s e ip hvalid).2 hin⟩

/-- With a database, the table has the prefixes of the files and those of the wanted countries. -/
theorem covers_finish {required : List String} {csv : String} {acc : Parsed Prefix} {t : Text}
    {snap : Snapshot Prefix} (h : finish libs.net required csv acc (.data t) = .ok snap) (ip : Addr) :
    (∃ e ∈ snap.table, e.1.covers ip = true) ↔
      (∃ e ∈ acc.prefixes, e.1.covers ip = true) ∨
        ∃ cc ∈ acc.countries.map Prod.fst, ∃ row ∈ libs.csvRecords t, ∃ s e,
          libs.IsRow row cc s e ∧ inRange s e ip = true := by
  rw [finish] at h
  split at h
  · rename_i hnone
    cases h
    simp [hnone]
  · split at h
    · rename_i byCC hexpand
      cases h
      simp only [List.mem_append, or_and_right, exists_or]
      rw [covers_countryPrefixes, covers_expandCountries hexpand]
    · cases h

theorem load_ok {current : Snapshot Prefix} {required files : List String} {csv : String}
    {read : String → Read} (h : (libs.load current required files csv read).1 = .ok ()) :
    ∃ acc, buildFiles libs.net required .empty (files.map fun f => (f, read f)) = .ok acc ∧
      finish libs.net required csv acc (read csv) =
        .ok (libs.load current required files csv read).2 := by
  have hbuild : build libs.net required files csv read =
      .ok (libs.load current required files csv read).2 := by
    unfold load at h ⊢
    split at h
    · rename_i hok
      rw [hok]
    · cases h
  generalize (libs.load current required files csv read).2 = snap at hbuild
  rw [build] at hbuild
  split at hbuild
  · rename_i acc hacc
    exact ⟨acc, hacc, hbuild⟩
  · cases hbuild

/-- **The engine matches what the files ban.**  After a load, an address is found just if it is
named by an `ip` line, covered by a `cidr` line of its family, or in a range of a country that a
`country` line names. -/
theorem match_iff_banned (libs : Libs) (current : Snapshot Prefix) (required files : List String)
    (csv : String) (read : String → Read) (database : Text) (hcsv : read csv = .data database)
    (hload : (libs.load current required files csv read).1 = .ok ()) (ip : Addr) :
    (libs.engineMatch (libs.load current required files csv read).2 ip).isSome = true ↔
      libs.Banned (files.map fun f => (f, read f)) database ip := by
  obtain ⟨acc, hfiles, hfinish⟩ := load_ok hload
  rw [hcsv] at hfinish
  have hcountries := fun cc => (collects_countries cc).all_iff hfiles
  rw [engineMatch, libs.lookup_isSome, covers_finish hfinish, (collects_covers ip).all_iff hfiles]
  simp only [parseLine_iff] at hcountries ⊢
  refine or_congr_right ⟨?_, ?_⟩
  · rintro ⟨cc, hcc, row, hrow, s, e, hisRow, hin⟩
    obtain ⟨kind, country, hentry, rfl, rfl⟩ := (hcountries cc).1 hcc
    exact ⟨country, hentry, row, hrow, s, e, hisRow, hin⟩
  · rintro ⟨country, hentry, row, hrow, s, e, hisRow, hin⟩
    exact ⟨_, (hcountries _).2 ⟨.country, country, hentry, rfl, rfl⟩, row, hrow, s, e, hisRow, hin⟩

/-! ## An instance -/

/-- All addresses of a range, each by itself. -/
def hostsBetween : Addr → Addr → List Prefix
  | .v4 n, .v4 m => (List.range (m.toNat - n.toNat + 1)).map fun i =>
      Netip.prefixFrom (.v4 (BitVec.ofNat 32 (n.toNat + i))) 32
  | .v6 n _, .v6 m _ => (List.range (m.toNat - n.toNat + 1)).map fun i =>
      Netip.prefixFrom (.v6 (BitVec.ofNat 128 (n.toNat + i)) []) 128
  | _, _ => []

theorem exists_between {w : Nat} {n m k : BitVec w} (h : n ≤ m) :
    (∃ i ∈ List.range (m.toNat - n.toNat + 1), BitVec.ofNat w (n.toNat + i) = k) ↔
      n ≤ k ∧ k ≤ m := by
  simp only [List.mem_range, BitVec.le_def] at h ⊢
  constructor
  · rintro ⟨i, hi, rfl⟩
    have hm := m.isLt
    rw [BitVec.toNat_ofNat, Nat.mod_eq_of_lt (by omega)]
    omega
  · rintro ⟨hstart, hstop⟩
    refine ⟨k.toNat - n.toNat, by omega, ?_⟩
    rw [Nat.add_sub_cancel' hstart, BitVec.ofNat_toNat, BitVec.setWidth_eq]

theorem covers_hostsBetween (start stop a : Addr) (h : rangeValid start stop = true) :
    (∃ p ∈ hostsBetween start stop, p.covers a = true) ↔ inRange start stop a = true := by
  cases start with
  | v4 n =>
    cases stop with
    | v4 m =>
      simp only [hostsBetween, List.mem_map, exists_exists_and_eq_and]
      cases a with
      | v4 k =>
        have hhost := fun i => covers_prefixFrom_bitLen (.v4 (BitVec.ofNat 32 (n.toNat + i))) (.v4 k)
        simp only [Addr.bitLen, Addr.withoutZone, Addr.v4.injEq] at hhost
        simp only [hhost, exists_between (of_decide_eq_true h), inRange, decide_eq_true_eq]
      | v6 k zone => simp [Prefix.covers, Netip.prefixFrom, Addr.withoutZone, inRange]
    | v6 m zone => cases h
  | v6 n zone =>
    cases stop with
    | v4 m => cases h
    | v6 m zone' =>
      simp only [hostsBetween, List.mem_map, exists_exists_and_eq_and]
      cases a with
      | v4 k => simp [Prefix.covers, Netip.prefixFrom, Addr.withoutZone, inRange]
      | v6 k zone'' =>
        have hhost := fun i =>
          covers_prefixFrom_bitLen (.v6 (BitVec.ofNat 128 (n.toNat + i)) []) (.v6 k zone'')
        simp only [Addr.bitLen, Addr.withoutZone, Addr.v6.injEq, and_true] at hhost
        simp only [hhost, exists_between (of_decide_eq_true h).2, inRange, decide_eq_true_eq]

/-- Some IPv4 addresses and a range can be written, and rows are lines with commas. -/
def sampleLibs : Libs where
  toLower s := s.map Char.toLower
  toUpper s := s.map Char.toUpper
  parseAddr s := [("1.2.3.4".toList, .v4 0x01020304), ("1.2.3.9".toList, .v4 0x01020309),
    ("8.8.8.8".toList, .v4 0x08080808)].lookup s
  parsePrefix s := if s = "10.0.0.8/30".toList then some ⟨.v4 0x0A000008, 30⟩ else none
  csvRecords t := (t.splitOn '\n').map fun line => some (line.splitOn ',')
  rangePrefixes := hostsBetween
  lookup table a := (table.find? fun e => e.1.covers a).map Prod.snd
  covers_rangePrefixes := covers_hostsBetween
  lookup_isSome table a := by
    rw [Option.isSome_map, List.find?_isSome]

/-- A line that is no entry, an address with a comment, a range and a country of one row. -/
def sampleBans : Text := "x\nIP 8.8.8.8 # one\ncidr 10.0.0.8/30\ncountry dE".toList

def sampleDatabase : Text := "1.2.3.4,1.2.3.9,De".toList

def sampleRead (path : String) : Read :=
  if path = "bans" then .data sampleBans else .data sampleDatabase

/-- The address, one of the range and one of the row are banned, and the one after the range is
not. -/
theorem match_iff_banned_sample :
    sampleLibs.Banned [("bans", .data sampleBans)] sampleDatabase (.v4 0x08080808) ∧
      sampleLibs.Banned [("bans", .data sampleBans)] sampleDatabase (.v4 0x0A000009) ∧
      sampleLibs.Banned [("bans", .data sampleBans)] sampleDatabase (.v4 0x01020305) ∧
      ¬ sampleLibs.Banned [("bans", .data sampleBans)] sampleDatabase (.v4 0x0A00000C) := by
  have h := match_iff_banned sampleLibs emptySnapshot [] ["bans"] "countries" sampleRead
    sampleDatabase rfl (by decide +kernel)
  exact ⟨(h (.v4 0x08080808)).1 (by decide +kernel), (h (.v4 0x0A000009)).1 (by decide +kernel),
    (h (.v4 0x01020305)).1 (by decide +kernel), fun hbanned =>
      absurd ((h (.v4 0x0A00000C)).2 hbanned) (by decide +kernel)⟩

end Libs

end Tunneld.Ban

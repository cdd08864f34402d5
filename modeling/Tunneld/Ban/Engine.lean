import Tunneld.Lib.Words

/-!
# Building a ban table from the ban files

A ban table is built from the contents of the configured ban files and, if one of them bans a
country, of the country database.  Lines and rows that cannot be understood are skipped.  What
cannot be skipped is a file: one that cannot be read, and one that was there at the last load and is
gone, fail the build; only a file that was not there before may be missing.

`build` is given what each path reads as.  It is written so that the watcher can be seen to compute
it: `buildFiles` over the list of the reads it has made, then `finish`.

The address functions of `netip` and `netipx`, letter case and the CSV reader are parameters.  The
table is the list of its entries; the order of the entries, which follows Go's map order for the
countries, only decides which of two sources of one prefix is reported.
-/

namespace Tunneld.Ban

open Words

/-- The functions of the libraries: `α` are addresses and `φ` prefixes. -/
structure Net (α φ : Type) where
  /-- `strings.ToLower`. -/
  toLower : Text → Text
  /-- `strings.ToUpper`. -/
  toUpper : Text → Text
  /-- `netip.ParseAddr`. -/
  parseAddr : Text → Option α
  /-- `Addr.Unmap`. -/
  unmap : α → α
  /-- `netip.PrefixFrom(addr, addr.BitLen())`. -/
  hostPrefix : α → φ
  /-- `netip.ParsePrefix`. -/
  parsePrefix : Text → Option φ
  /-- `Prefix.Addr`. -/
  addr : φ → α
  /-- `Prefix.Bits`. -/
  bits : φ → Nat
  /-- `Addr.Is4In6`. -/
  is4In6 : α → Bool
  /-- `netip.PrefixFrom`. -/
  prefixFrom : α → Nat → φ
  /-- `Prefix.Masked`. -/
  masked : φ → φ
  /-- The records of a CSV text; `none` is one the reader cannot parse. -/
  csvRecords : Text → List (Option (List Text))
  /-- `IPRange.IsValid`. -/
  rangeValid : α → α → Bool
  /-- `IPRange.Prefixes`. -/
  rangePrefixes : α → α → List φ

/-! ## Lines -/

/-- What a line bans. -/
inductive Kind
  | ip
  | cidr
  | country
  | tunnelName
  deriving DecidableEq

/-- The keywords of a line. -/
def Kind.keyword : Kind → Text
  | .ip => "ip".toList
  | .cidr => "cidr".toList
  | .country => "country".toList
  | .tunnelName => "tunnel-name".toList

/-- The kind of a keyword. -/
def Kind.ofText (kind : Text) : Option Kind :=
  [Kind.ip, .cidr, .country, .tunnelName].find? fun k => kind = k.keyword

/-- Why a line is skipped with a warning. -/
inductive LineError
  | malformed (line : Text)
  | unknownKind (kind : Text)

/-- `Reason`. -/
inductive Reason
  | ip
  | cidr
  | country
  | tunnelName
  deriving DecidableEq

/-- `Source`: where a ban comes from. -/
structure Source where
  file : String
  line : Nat
  reason : Reason
  detail : Text
  deriving DecidableEq

section Build

variable {α φ : Type} (net : Net α φ)

/-- `ParseLine`; a blank line or a comment is no entry, and no error. -/
def parseLine (line : Text) : Except LineError (Option (Kind × Text)) :=
  let line := trimSpace (line.takeWhile (· ≠ '#'))
  if line = [] then .ok none
  else
    match fields line with
    | [kind, value] =>
      match Kind.ofText (net.toLower kind) with
      | some k => .ok (some (k, value))
      | none => .error (.unknownKind (net.toLower kind))
    | _ => .error (.malformed line)

/-! ## Files -/

/-- Write a key of a map. -/
def put (m : List (Text × Source)) (k : Text) (v : Source) : List (Text × Source) :=
  (k, v) :: m.filter (·.1 ≠ k)

/-- `maps.Copy`. -/
def copy (m m' : List (Text × Source)) : List (Text × Source) :=
  m'.foldr (fun p m => put m p.1 p.2) m

/-- `parsed`: what one file has, or all of them. -/
structure Parsed (φ : Type) where
  prefixes : List (φ × Source)
  countries : List (Text × Source)
  names : List (Text × Source)
  deriving DecidableEq

def Parsed.empty : Parsed φ := ⟨[], [], []⟩

/-- One entry of a file. -/
def Parsed.addEntry (p : Parsed φ) (path : String) (line : Nat) : Kind → Text → Parsed φ
  | .ip, value =>
    match net.parseAddr value with
    | none => p
    | some addr =>
      { p with prefixes := p.prefixes ++
        [(net.hostPrefix (net.unmap addr), ⟨path, line, .ip, value⟩)] }
  | .cidr, value =>
    match net.parsePrefix value with
    | none => p
    | some pfx =>
      if net.is4In6 (net.addr pfx) then
        if net.bits pfx < 96 then p
        else { p with prefixes := p.prefixes ++
          [(net.masked (net.prefixFrom (net.unmap (net.addr pfx)) (net.bits pfx - 96)),
            ⟨path, line, .cidr, value⟩)] }
      else { p with prefixes := p.prefixes ++ [(net.masked pfx, ⟨path, line, .cidr, value⟩)] }
  | .country, value =>
    let cc := net.toUpper value
    { p with countries := put p.countries cc ⟨path, line, .country, cc⟩ }
  | .tunnelName, value =>
    { p with names := put p.names value ⟨path, line, .tunnelName, value⟩ }

/-- `parseFile`, of a file that could be read. -/
def parseFile (path : String) (data : Text) : Parsed φ :=
  ((data.splitOn '\n').zipIdx 1).foldl (fun p l =>
    match parseLine net l.1 with
    | .ok (some (kind, value)) => p.addEntry net path l.2 kind value
    | .ok none | .error _ => p) .empty

/-! ## The country database -/

/-- One record: whether it counts as a valid row, and the prefixes of the country it names. -/
def countryRow (wanted : List Text) (row : Option (List Text)) : Bool × Option (Text × List φ) :=
  match row with
  | some (start :: stop :: cc :: _) =>
    match net.parseAddr (trimSpace start), net.parseAddr (trimSpace stop) with
    | some start, some stop =>
      let cc := net.toUpper (trimSpace cc)
      if cc ∉ wanted then (true, none)
      else if net.rangeValid start stop then (true, some (cc, net.rangePrefixes start stop))
      else (true, none)
    | _, _ => (false, none)
  | _ => (false, none)

/-- `ExpandCountries`, of a database that could be read: the prefixes of the wanted countries, row
by row, unless no row is valid. -/
def expandCountries (data : Text) (wanted : List Text) : Option (List (Text × List φ)) :=
  let rows := (net.csvRecords data).map (countryRow net wanted)
  if rows.any (·.1) then some (rows.filterMap (·.2)) else none

/-! ## The build -/

/-- How reading a path ends. -/
inductive Read
  | data (t : Text)
  | notExist
  | hard
  deriving DecidableEq

/-- `snapshot`. -/
structure Snapshot (φ : Type) where
  table : List (φ × Source)
  names : List (Text × Source)
  deriving DecidableEq

def emptySnapshot : Snapshot φ := ⟨[], []⟩

/-- Why a build failed. -/
inductive Failure
  | vanished (path : String)
  | unreadable (path : String)
  /-- The country database has no valid row. -/
  | noRows
  deriving DecidableEq

/-- One file of the loop in `build`. -/
def addFile (required : List String) (acc : Parsed φ) (path : String) :
    Read → Except Failure (Parsed φ)
  | .data t =>
    let p := parseFile net path t
    .ok ⟨acc.prefixes ++ p.prefixes, copy acc.countries p.countries, copy acc.names p.names⟩
  | .notExist => if path ∈ required then .error (.vanished path) else .ok acc
  | .hard => .error (.unreadable path)

/-- The loop in `build`, over what the files read as. -/
def buildFiles (required : List String) (acc : Parsed φ) :
    List (String × Read) → Except Failure (Parsed φ)
  | [] => .ok acc
  | (path, r) :: rest =>
    match addFile net required acc path r with
    | .ok acc => buildFiles required acc rest
    | .error e => .error e

/-- The prefixes of the countries, each with the entry that asked for it. -/
def countryPrefixes (countries : List (Text × Source)) (byCC : List (Text × List φ)) :
    List (φ × Source) :=
  byCC.flatMap fun c => match countries.lookup c.1 with
    | some src => c.2.map fun pfx => (pfx, src)
    | none => []

/-- The rest of `build`: the country database is read only if a country is banned. -/
def finish (required : List String) (csv : String) (acc : Parsed φ) (r : Read) :
    Except Failure (Snapshot φ) :=
  if acc.countries = [] then .ok ⟨acc.prefixes, acc.names⟩
  else
    match r with
    | .data t =>
      match expandCountries net t (acc.countries.map Prod.fst) with
      | some byCC => .ok ⟨acc.prefixes ++ countryPrefixes acc.countries byCC, acc.names⟩
      | none => .error .noRows
    | .notExist => if csv ∈ required then .error (.vanished csv) else .ok ⟨acc.prefixes, acc.names⟩
    | .hard => .error (.unreadable csv)

/-- `build`, where `read` is what each path reads as. -/
def build (required files : List String) (csv : String) (read : String → Read) :
    Except Failure (Snapshot φ) :=
  match buildFiles net required .empty (files.map fun f => (f, read f)) with
  | .ok acc => finish net required csv acc (read csv)
  | .error e => .error e

end Build

end Tunneld.Ban

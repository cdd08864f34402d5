import Tunneld.Refused.Textfile

/-!
# The report of refused attempts

The attempts that have not been reported yet are grouped by day, app, variant of the app and
address.  The report has a section for each variant, with a row for every day and address, and is
packed into messages: a section is split where the next row would make the message longer than the
limits, and is started again, with its heading, in the next one.

A message is kept as the pieces of sections it is made of, whose texts one after the other are its
body.  `packRows` is the loop over the rows of a section, with the totals it keeps of blocks and
characters.  It ends, since a message that has been started anew takes a row.

What the messages show (`placed`) is what the sections have (`placed_packBodies`), and these have
one row for each group (`placed_byApp`).  The totals are those of the text that is sent
(`runeCount_message`), since its pieces begin with a `<` and no character is cut there.

## Main results

* `report_conserved`: every group has its row, and every message is within the limits.
-/

namespace Tunneld.Refused

open Utf8 Group

/-! ## Groups -/

/-- What the report takes from its time zone: the date of an instant, the start of its day, the day
of such a start as it is written in a row, and the time of day. -/
structure Zone where
  date : Nat → Bytes
  midnight : Nat → Int
  shortDay : Int → Bytes
  clock : Nat → Bytes

structure Variant where
  key : Bytes
  version : Int
  verified : Bool
  deriving DecidableEq

structure GroupKey where
  date : Bytes
  app : Bytes
  v : Variant
  ip : Bytes
  deriving DecidableEq

/-- The order of the groups. -/
def GroupKey.le (a b : GroupKey) : Bool :=
  if a.date ≠ b.date then leBytes a.date b.date
  else if a.app ≠ b.app then leBytes a.app b.app
  else if a.v.key ≠ b.v.key then leBytes a.v.key b.v.key
  else if a.v.version ≠ b.v.version then a.v.version ≤ b.v.version
  else if a.v.verified ≠ b.v.verified then b.v.verified
  else leBytes a.ip b.ip

/-- The app of a group, in the variant it has there. -/
structure AppVariant where
  app : Bytes
  v : Variant
  deriving DecidableEq

def GroupKey.appVariant (k : GroupKey) : AppVariant := ⟨k.app, k.v⟩

structure SourceGroup where
  ip : Bytes
  times : List Nat

structure VariantGroup where
  variant : Variant
  sources : List SourceGroup

structure AppGroup where
  name : Bytes
  variants : List VariantGroup

structure DayGroup where
  date : Int
  apps : List AppGroup

section GroupByDay

variable (zone : Zone) (fresh : List (Bytes × Attempt))

def groupKey (f : Bytes × Attempt) : GroupKey :=
  ⟨zone.date f.2.time, f.1, ⟨f.2.key, f.2.version, f.2.verified⟩, f.2.ip⟩

/-- The map `times`, in the order of its keys. -/
def sortedTimes : List (GroupKey × List Nat) :=
  (group (groupKey zone) (fun ts f => ts.getD [] ++ [f.2.time]) fresh).insertionSort fun a b =>
    a.1.le b.1 = true

/-- The map `dates`. -/
def dates : Bytes → Int :=
  fresh.foldl (fun m f => Function.update m (zone.date f.2.time) (zone.midnight f.2.time)) fun _ => 0

def sortTimes (ts : List Nat) : List Nat := ts.insertionSort (· ≤ ·)

section Push

variable (dates : Bytes → Int) (e : GroupKey × List Nat)

def VariantGroup.push (v : VariantGroup) : VariantGroup :=
  { v with sources := v.sources ++ [⟨e.1.ip, sortTimes e.2⟩] }

def AppGroup.push (app : AppGroup) : AppGroup :=
  { app with variants := pushLast (·.variant = e.1.v) ⟨e.1.v, []⟩ (.push e) app.variants }

def DayGroup.push (day : DayGroup) : DayGroup :=
  { day with apps := pushLast (·.name = e.1.app) ⟨e.1.app, []⟩ (.push e) day.apps }

/-- The times of a key go to the last day, app and variant if they are of them, or to new ones. -/
def pushKey (days : List DayGroup) : List DayGroup :=
  pushLast (·.date = dates e.1.date) ⟨dates e.1.date, []⟩ (.push e) days

end Push

def groupByDay : List DayGroup :=
  (sortedTimes zone fresh).foldl (fun days e => pushKey (dates zone fresh) e days) []

end GroupByDay

/-! ## Sections -/

structure Report where
  zone : Zone
  /-- The characters that are not shown: controls and formats. -/
  hidden : Bytes → Bool
  lastReport : Bytes
  known : Bytes → Bool
  fresh : List (Bytes × Attempt)

structure Section where
  heading : Bytes
  note : Bytes
  columns : List Bytes
  rows : List (List Bytes)
  deriving DecidableEq

def keyShown : Nat := 12

def cellRunes : Nat := 256

/-- `utf8.RuneCountInString`. -/
def runeCount (s : Bytes) : Nat := (runes s).length

def clip (s : Bytes) (n : Nat) : Bytes :=
  if runeCount s ≤ n then s
  else ((runes s).take n).flatMap (fun r => r.getD replacement) ++ [0xE2, 0x80, 0xA6]

namespace Report

variable (r : Report)

def display (s : Bytes) : Bytes :=
  (runes (toValid s)).flatMap fun c =>
    (c.filter fun c => !r.hidden c).getD replacement

def first : Bool := r.lastReport = []

def appName (name : Bytes) : Bytes :=
  (if name = [] then ascii "(no app named in the attestation)".toList
    else clip (r.display name) cellRunes) ++
  if !r.first && !r.known name then ascii " (first time seen)".toList else []

def keyText (v : Variant) : Bytes :=
  if v.key = [] then ascii "none".toList else clip (r.display v.key) keyShown

def describe (v : Variant) : Bytes :=
  if v.key = [] ∧ v.version = 0 then
    ascii "no signing key or version in the attestation, not verified".toList
  else
    (if v.key ≠ [] then ascii "key ".toList ++ r.keyText v else ascii "no signing key".toList) ++
      ascii ", version ".toList ++ formatInt v.version ++ ascii ", ".toList ++
      if v.verified then ascii "verified".toList else ascii "not verified".toList

/-- The span of times that are not none. -/
def span (ts : List Nat) : Bytes :=
  let first := r.zone.clock (ts.head?.getD 0)
  let last := r.zone.clock (ts.getLast?.getD 0)
  if first = last then first else first ++ [0xE2, 0x80, 0x93] ++ last

/-- The cells of a row. -/
def cells (date : Int) (src : SourceGroup) : List Bytes :=
  [r.zone.shortDay date, r.span src.times, clip (r.display src.ip) cellRunes,
    formatInt src.times.length]

def columns : List Bytes :=
  [ascii "Day".toList, ascii "Time".toList, ascii "IP".toList, ascii "Tries".toList]

/-- The section of a variant with the rows of one of its groups more. -/
def addRows (s : Option Section) (g : Int × Bytes × VariantGroup) : Section :=
  let s := s.getD ⟨r.appName g.2.1, r.describe g.2.2.variant, columns, []⟩
  { s with rows := s.rows ++ g.2.2.sources.map (r.cells g.1) }

/-- The variants of all days, each with its day and app. -/
def variantsOf (days : List DayGroup) : List (Int × Bytes × VariantGroup) :=
  days.flatMap fun day => day.apps.flatMap fun app => app.variants.map fun v => (day.date, app.name, v)

def appVariant (g : Int × Bytes × VariantGroup) : AppVariant := ⟨g.2.1, g.2.2.variant⟩

def byApp (days : List DayGroup) : List Section :=
  (group appVariant r.addRows (variantsOf days)).map Prod.snd

end Report

/-! ## Messages -/

def partRoom : Nat := 32

structure MessageLimits where
  blocks : Int
  runes : Int

/-- `html.EscapeString`. -/
def escapeHTML (s : Bytes) : Bytes :=
  s.flatMap fun b =>
    if b = 38 then ascii "&amp;".toList
    else if b = 39 then ascii "&#39;".toList
    else if b = 60 then ascii "&lt;".toList
    else if b = 62 then ascii "&gt;".toList
    else if b = 34 then ascii "&#34;".toList
    else [b]

def tableStart : Bytes := ascii "<table bordered striped compact>".toList

def tableEnd : Bytes := ascii "</table>".toList

/-- The `head` of `render`. -/
def Section.head (s : Section) : Bytes :=
  ascii "<h4>".toList ++ escapeHTML s.heading ++ ascii "</h4>".toList ++
    (if s.note ≠ [] then ascii "<p>".toList ++ escapeHTML s.note ++ ascii "</p>".toList else []) ++
    tableStart ++ ascii "<tr>".toList ++
    (s.columns.flatMap fun c => ascii "<th>".toList ++ escapeHTML c ++ ascii "</th>".toList) ++
    ascii "</tr>".toList

/-- The `blocks` of `render`. -/
def Section.headBlocks (s : Section) : Nat := if s.note ≠ [] then 4 else 3

def renderRow (row : List Bytes) : Bytes :=
  ascii "<tr>".toList ++
    (row.flatMap fun c => ascii "<td>".toList ++ escapeHTML c ++ ascii "</td>".toList) ++
    ascii "</tr>".toList

/-- Rows of a section, below its heading. -/
structure Chunk where
  sect : Section
  rows : List (List Bytes)
  deriving DecidableEq

def Chunk.text (c : Chunk) : Bytes := c.sect.head ++ c.rows.flatMap renderRow ++ tableEnd

structure Packing where
  bodies : List (List Chunk)
  cur : List Chunk
  blocks : Nat
  runes : Nat
  deriving DecidableEq

def Packing.all (p : Packing) : List (List Chunk) := p.bodies ++ [p.cur]

section Pack

variable (intro : Bytes) (lim : MessageLimits)

def start (bodies : List (List Chunk)) : Packing :=
  ⟨bodies, [], 1, partRoom + 7 + if bodies = [] then runeCount intro else 0⟩

def flush (p : Packing) : Packing := start intro (p.bodies ++ [p.cur])

/-- How many rows fit, and the totals with them. -/
def fit (b n : Nat) : List (List Bytes) → Nat × Nat × Nat
  | [] => (0, b, n)
  | row :: rows =>
    if (b + 1 : Nat) ≤ lim.blocks ∧ (n + runeCount (renderRow row) : Nat) ≤ lim.runes then
      let f := fit (b + 1) (n + runeCount (renderRow row)) rows
      (f.1 + 1, f.2)
    else (0, b, n)

/-- At least a row is taken. -/
def force (row : List Bytes) (f : Nat × Nat × Nat) : Nat × Nat × Nat :=
  if f.1 = 0 then (1, f.2.1 + 1, f.2.2 + runeCount (renderRow row)) else f

theorem force_pos (row : List Bytes) (f : Nat × Nat × Nat) : 0 < (force row f).1 := by
  rw [force]
  split
  · exact Nat.one_pos
  · exact Nat.pos_of_ne_zero ‹_›

/-- The message with rows of a section more, and the totals with them. -/
def Packing.write (p : Packing) (s : Section) (rows : List (List Bytes)) (totals : Nat × Nat) :
    Packing :=
  { p with cur := p.cur ++ [⟨s, rows⟩], blocks := totals.1, runes := totals.2 }

/-- The next message, if rows are left. -/
def Packing.next (p : Packing) (rest : List (List Bytes)) : Packing :=
  if rest ≠ [] then flush intro p else p

/-- The loop over the rows of a section. -/
def packRows (s : Section) : List (List Bytes) → Packing → Packing
  | [], p => p
  | row :: rows, p =>
    let f := fit lim (p.blocks + s.headBlocks) (p.runes + runeCount s.head + 8) (row :: rows)
    if f.1 = 0 ∧ p.cur ≠ [] then packRows s (row :: rows) (flush intro p)
    else
      let k := force row f
      let rest := (row :: rows).drop k.1
      let q := p.write s ((row :: rows).take k.1) k.2
      packRows s rest (q.next intro rest)
  termination_by rows p => 2 * rows.length + if p.cur = [] then 0 else 1
  decreasing_by
    · rename_i h
      have hcur : (flush intro p).cur = [] := rfl
      rw [if_pos hcur, if_neg h.2]
      omega
    · have hlt : ∀ n, 0 < n → ((row :: rows).drop n).length < (row :: rows).length := by
        intro n hn
        rw [List.length_drop, List.length_cons]
        omega
      have hrest := hlt _ (force_pos row
        (fit lim (p.blocks + s.headBlocks) (p.runes + runeCount s.head + 8) (row :: rows)))
      split <;> split <;> omega

/-- The bodies of the messages. -/
def packBodies (sections : List Section) : List (List Chunk) :=
  (sections.foldl (fun p s => packRows intro lim s s.rows p) (start intro [])).all

end Pack

def br : Bytes := ascii "<br>".toList

def partLine (i n : Nat) : Bytes :=
  ascii "Part ".toList ++ Json.decimal i ++ ascii " of ".toList ++ Json.decimal n

/-- The first lines of the `i`th of `n` messages. -/
def header (intro : Bytes) (n i : Nat) : Bytes :=
  br.intercalate ((if 1 < n then [partLine (i + 1) n] else []) ++ if i = 0 then [intro] else [])

def message (intro : Bytes) (n i : Nat) (body : List Chunk) : Bytes :=
  ascii "<p>".toList ++ (header intro n i ++ (ascii "</p>".toList ++ body.flatMap Chunk.text))

def joinLead (lead : List Bytes) : Bytes := br.intercalate (lead.map escapeHTML)

def pack (lead : List Bytes) (sections : List Section) (lim : MessageLimits) : List Bytes :=
  let bodies := packBodies (joinLead lead) lim sections
  bodies.mapIdx (message (joinLead lead) bodies.length)

/-! ## What the messages show -/

/-- Rows of a section, each with the heading and the note above it. -/
def Section.placed (s : Section) (rows : List (List Bytes)) : List (Bytes × Bytes × List Bytes) :=
  rows.map fun row => (s.heading, s.note, row)

/-- The rows of all messages. -/
def placed (bodies : List (List Chunk)) : List (Bytes × Bytes × List Bytes) :=
  bodies.flatten.flatMap fun c => c.sect.placed c.rows

section Placed

variable {intro : Bytes} {lim : MessageLimits} {p : Packing} {s : Section}

theorem placed_flush : placed (flush intro p).all = placed p.all := by
  simp [placed, Packing.all, flush, start]

theorem placed_write {rows : List (List Bytes)} {totals : Nat × Nat} :
    placed (p.write s rows totals).all = placed p.all ++ s.placed rows := by
  simp [placed, Packing.all, Packing.write]

theorem placed_packRows (rows : List (List Bytes)) (p : Packing) :
    placed (packRows intro lim s rows p).all = placed p.all ++ s.placed rows := by
  fun_induction packRows intro lim s rows p with
  | case1 p => simp [Section.placed]
  | case2 row rows p f h ih => rw [ih, placed_flush]
  | case3 row rows p f h k rest q ih =>
    have hsplit : s.placed (row :: rows) = s.placed ((row :: rows).take k.1) ++ s.placed rest := by
      rw [Section.placed, Section.placed, Section.placed, ← List.map_append, List.take_append_drop]
    have hq : placed q.all = placed p.all ++ s.placed ((row :: rows).take k.1) := placed_write
    rw [ih, hsplit, ← List.append_assoc, ← hq, Packing.next]
    split
    · rw [placed_flush]
    · rfl

theorem placed_packBodies (sections : List Section) : placed (packBodies intro lim sections) =
    sections.flatMap fun s => s.placed s.rows := by
  suffices h : ∀ p : Packing,
      placed (sections.foldl (fun p s => packRows intro lim s s.rows p) p).all =
        placed p.all ++ sections.flatMap fun s => s.placed s.rows from h (start intro [])
  induction sections with
  | nil => simp
  | cons s sections ih =>
    intro p
    rw [List.foldl_cons, ih, placed_packRows, List.append_assoc]
    rfl

end Placed

/-! ## One row for each group -/

/-- A source with its day, app and variant. -/
structure Entry where
  date : Int
  app : Bytes
  variant : Variant
  source : SourceGroup

def Entry.appVariant (e : Entry) : AppVariant := ⟨e.app, e.variant⟩

def entries (days : List DayGroup) : List Entry :=
  days.flatMap fun day => day.apps.flatMap fun app => app.variants.flatMap fun v =>
    v.sources.map (Entry.mk day.date app.name v.variant)

theorem entries_pushKey (dates : Bytes → Int) (e : GroupKey × List Nat) (days : List DayGroup) :
    entries (pushKey dates e days) = entries days ++
      [⟨dates e.1.date, e.1.app, e.1.v, ⟨e.1.ip, sortTimes e.2⟩⟩] := by
  have hvariant (date : Int) (app : Bytes) (vs : List VariantGroup) :
      (pushLast (·.variant = e.1.v) ⟨e.1.v, []⟩ (.push e) vs).flatMap (fun v =>
        v.sources.map (Entry.mk date app v.variant)) =
      vs.flatMap (fun v => v.sources.map (Entry.mk date app v.variant)) ++
        [⟨date, app, e.1.v, ⟨e.1.ip, sortTimes e.2⟩⟩] := by
    refine flatMap_pushLast rfl (fun v hv => ?_) vs
    simp [VariantGroup.push, of_decide_eq_true hv]
  have happ (date : Int) (apps : List AppGroup) :
      (pushLast (·.name = e.1.app) ⟨e.1.app, []⟩ (.push e) apps).flatMap (fun app =>
        app.variants.flatMap fun v => v.sources.map (Entry.mk date app.name v.variant)) =
      apps.flatMap (fun app =>
        app.variants.flatMap fun v => v.sources.map (Entry.mk date app.name v.variant)) ++
        [⟨date, e.1.app, e.1.v, ⟨e.1.ip, sortTimes e.2⟩⟩] := by
    refine flatMap_pushLast rfl (fun app h => ?_) apps
    simp only [AppGroup.push, of_decide_eq_true h, hvariant, List.flatMap_nil, List.nil_append]
  refine flatMap_pushLast rfl (fun day h => ?_) days
  simp only [DayGroup.push, of_decide_eq_true h, happ, List.flatMap_nil, List.nil_append]

theorem entries_groupByDay (zone : Zone) (fresh : List (Bytes × Attempt)) :
    entries (groupByDay zone fresh) = (sortedTimes zone fresh).map fun e =>
      ⟨dates zone fresh e.1.date, e.1.app, e.1.v, ⟨e.1.ip, sortTimes e.2⟩⟩ := by
  rw [groupByDay]
  induction sortedTimes zone fresh using List.reverseRecOn with
  | nil => rfl
  | append_singleton es e ih =>
    rw [List.foldl_append, List.foldl_cons, List.foldl_nil, entries_pushKey, ih, List.map_append]
    rfl

namespace Report

variable (r : Report)

/-- The row of an entry, with the heading and the note of its section. -/
def placedEntry (e : Entry) : Bytes × Bytes × List Bytes :=
  (r.appName e.app, r.describe e.variant, r.cells e.date e.source)

theorem entries_eq (days : List DayGroup) : entries days = (variantsOf days).flatMap fun g =>
    g.2.2.sources.map (Entry.mk g.1 g.2.1 g.2.2.variant) := by
  simp only [entries, variantsOf, List.flatMap_assoc, List.flatMap_map]

/-- The section of a variant has the rows of its entries. -/
theorem placed_section {days : List DayGroup} {p : AppVariant × Section}
    (h : p ∈ group appVariant r.addRows (variantsOf days)) :
    p.2.placed p.2.rows =
      ((entries days).filter fun e => e.appVariant = p.1).map r.placedEntry := by
  obtain ⟨hheading, hnote, hrows⟩ := of_mem_group appVariant r.addRows
    (P := fun k l s => s.heading = r.appName k.app ∧ s.note = r.describe k.v ∧
      s.rows = l.flatMap fun g => g.2.2.sources.map (r.cells g.1))
    (fun g => ⟨rfl, rfl, by simp [addRows]⟩)
    (fun l g s hs => ⟨hs.1, hs.2.1, by simp [addRows, hs.2.2]⟩) h
  rw [Section.placed, hheading, hnote, hrows, entries_eq]
  induction variantsOf days with
  | nil => rfl
  | cons g gs ih =>
    have hown (src : SourceGroup) :
        (Entry.mk g.1 g.2.1 g.2.2.variant src).appVariant = appVariant g := rfl
    rw [List.flatMap_cons, List.filter_append, List.map_append, ← ih, List.filter_map]
    by_cases hg : appVariant g = p.1
    · have hall : g.2.2.sources.filter ((fun e => decide (e.appVariant = p.1)) ∘
          Entry.mk g.1 g.2.1 g.2.2.variant) = g.2.2.sources :=
        List.filter_eq_self.2 fun src _ => decide_eq_true ((hown src).trans hg)
      rw [List.filter_cons_of_pos (by simpa using hg), List.flatMap_cons, List.map_append, hall, ← hg]
      simp [placedEntry, appVariant]
    · have hnone : g.2.2.sources.filter ((fun e => decide (e.appVariant = p.1)) ∘
          Entry.mk g.1 g.2.1 g.2.2.variant) = [] :=
        List.filter_eq_nil_iff.2 fun src _ heq => hg (of_decide_eq_true heq)
      rw [List.filter_cons_of_neg (by simpa using hg), hnone]
      rfl

theorem placed_byApp (days : List DayGroup) : ∃ heads : List AppVariant, heads.Nodup ∧
    (∀ e ∈ entries days, e.appVariant ∈ heads) ∧
    ((r.byApp days).flatMap fun s => s.placed s.rows) = heads.flatMap fun h =>
      ((entries days).filter fun e => e.appVariant = h).map r.placedEntry := by
  refine ⟨_, nodup_group appVariant r.addRows (variantsOf days),
    fun e he => ?_, ?_⟩
  · rw [entries_eq] at he
    obtain ⟨g, hg, he⟩ := List.mem_flatMap.1 he
    obtain ⟨src, -, rfl⟩ := List.mem_map.1 he
    exact (mem_keys_group _ _).2 ⟨g, hg, rfl⟩
  · rw [byApp, List.flatMap_map, List.flatMap_map]
    exact List.flatMap_congr fun p hp => r.placed_section hp

/-! ## The rows of the report -/

/-- The groups, in their order. -/
def keys : List GroupKey := (sortedTimes r.zone r.fresh).map Prod.fst

/-- The entry of a group. -/
def entryOf (k : GroupKey) : Entry :=
  ⟨dates r.zone r.fresh k.date, k.app, k.v, ⟨k.ip,
    sortTimes ((r.fresh.filter (groupKey r.zone · = k)).map fun f => f.2.time)⟩⟩

/-- The row of a group, with the heading and the note of its section. -/
def rowOf (k : GroupKey) : Bytes × Bytes × List Bytes := r.placedEntry (r.entryOf k)

/-- The number in the last cell of a row. -/
def tries (row : List Bytes) : Int := (row.getLast?.bind readInt).getD 0

theorem tries_rowOf (k : GroupKey) :
    tries (r.rowOf k).2.2 = (r.fresh.filter (groupKey r.zone · = k)).length := by
  have hlength (ts : List Nat) : (sortTimes ts).length = ts.length :=
    (List.perm_insertionSort _ ts).length_eq
  simp [tries, rowOf, entryOf, placedEntry, cells, readInt_formatInt, hlength]

theorem nodup_keys : r.keys.Nodup :=
  ((List.perm_insertionSort _ _).map _).nodup_iff.2 (nodup_group _ _ _)

theorem mem_keys {k : GroupKey} : k ∈ r.keys ↔ ∃ f ∈ r.fresh, groupKey r.zone f = k :=
  ((List.perm_insertionSort _ _).map _).mem_iff.trans (mem_keys_group _ _)

theorem entries_keys : entries (groupByDay r.zone r.fresh) = r.keys.map r.entryOf := by
  rw [entries_groupByDay, keys, List.map_map]
  refine List.map_congr_left fun e he => ?_
  have htimes := of_mem_group (groupKey r.zone) (fun ts f => ts.getD [] ++ [f.2.time])
    (P := fun _ l ts => ts = l.map fun f => f.2.time) (fun f => rfl)
    (fun l f ts hts => by simp [hts]) ((List.perm_insertionSort _ _).mem_iff.1 he)
  simp [entryOf, htimes]

/-- The sections have the rows of the groups, each those of its variant in their order. -/
theorem placed_sections : ∃ heads : List AppVariant, heads.Nodup ∧
    (∀ k ∈ r.keys, k.appVariant ∈ heads) ∧
    ((r.byApp (groupByDay r.zone r.fresh)).flatMap fun s => s.placed s.rows) =
      (heads.flatMap fun h => r.keys.filter (·.appVariant = h)).map r.rowOf := by
  obtain ⟨heads, hnodup, hmem, hplaced⟩ := r.placed_byApp (groupByDay r.zone r.fresh)
  rw [entries_keys] at hmem hplaced
  refine ⟨heads, hnodup, fun k hk => hmem _ (List.mem_map_of_mem hk), ?_⟩
  rw [hplaced, List.map_flatMap]
  simp only [List.filter_map, List.map_map]
  rfl

end Report

/-! ## The limits -/

/-- The text starts with a tag, or is empty. -/
def Tagged (s : Bytes) : Prop := ∀ b ∈ s.head?, b = 60

theorem runeCount_append {x y : Bytes} (h : Tagged y) :
    runeCount (x ++ y) = runeCount x + runeCount y := by
  have htail : ∀ b ∈ y.head?, tail b = false := by
    intro b hb
    rw [h b hb]
    rfl
  rw [runeCount, runes_append htail, List.length_append]
  rfl

theorem runeCount_ascii_append {x y : Bytes} (h : ∀ a ∈ x, a < 0x80) :
    runeCount (x ++ y) = x.length + runeCount y := by
  rw [runeCount, runes_append_of_ascii h, List.length_append, List.length_map]
  rfl

theorem tagged_flatMap {α : Type} {f : α → Bytes} (h : ∀ a, ∃ s, f a = 60 :: s) (l : List α) :
    Tagged (l.flatMap f) := by
  cases l with
  | nil => exact fun b hb => (by cases hb)
  | cons a l =>
    obtain ⟨s, hs⟩ := h a
    rw [List.flatMap_cons, hs]
    rintro b ⟨⟩
    rfl

theorem renderRow_tagged (row : List Bytes) : ∃ s, renderRow row = 60 :: s := ⟨_, rfl⟩

theorem Chunk.text_tagged (c : Chunk) : ∃ s, c.text = 60 :: s := ⟨_, rfl⟩

def Chunk.blocks (c : Chunk) : Nat := c.sect.headBlocks + c.rows.length

/-- The blocks of a body, as `render` counts them. -/
def blocksOf (body : List Chunk) : Nat := body.foldr (fun c n => c.blocks + n) 0

theorem blocksOf_concat (body : List Chunk) (c : Chunk) :
    blocksOf (body ++ [c]) = blocksOf body + c.blocks := by
  induction body with
  | nil => simp [blocksOf]
  | cons d body ih =>
    have hcons (l : List Chunk) : blocksOf (d :: l) = d.blocks + blocksOf l := rfl
    rw [List.cons_append, hcons, hcons, ih, Nat.add_assoc]

theorem runeCount_chunk (c : Chunk) : runeCount c.text =
    runeCount c.sect.head + 8 + runeCount (c.rows.flatMap renderRow) := by
  have hend : Tagged tableEnd := by
    rintro b ⟨⟩
    rfl
  rw [Chunk.text, runeCount_append hend, runeCount_append (tagged_flatMap renderRow_tagged _)]
  exact Nat.add_right_comm ..

section Fit

variable (lim : MessageLimits)

theorem fit_totals (rows : List (List Bytes)) (b n : Nat) :
    (fit lim b n rows).2 = (b + (fit lim b n rows).1,
      n + runeCount ((rows.take (fit lim b n rows).1).flatMap renderRow)) ∧
    (fit lim b n rows).1 ≤ rows.length := by
  induction rows generalizing b n with
  | nil => exact ⟨rfl, Nat.le_refl _⟩
  | cons row rows ih =>
    rw [fit]
    split
    · obtain ⟨htotals, hle⟩ := ih (b + 1) (n + runeCount (renderRow row))
      refine ⟨?_, Nat.succ_le_succ hle⟩
      simp only [htotals, List.take_succ_cons, List.flatMap_cons,
        runeCount_append (tagged_flatMap renderRow_tagged _)]
      exact Prod.ext (by simp only []; omega) (by simp only []; omega)
    · exact ⟨rfl, Nat.zero_le _⟩

/-- The rows that fit do. -/
theorem fit_le {rows : List (List Bytes)} {b n : Nat} (h : (fit lim b n rows).1 ≠ 0) :
    (fit lim b n rows).2.1 ≤ lim.blocks ∧ (fit lim b n rows).2.2 ≤ lim.runes := by
  induction rows generalizing b n with
  | nil => exact absurd rfl h
  | cons row rows ih =>
    by_cases hfits : (b + 1 : Nat) ≤ lim.blocks ∧ (n + runeCount (renderRow row) : Nat) ≤ lim.runes
    · rw [fit, if_pos hfits]
      by_cases hrest : (fit lim (b + 1) (n + runeCount (renderRow row)) rows).1 = 0
      · have htotals := (fit_totals lim rows (b + 1) (n + runeCount (renderRow row))).1
        rw [hrest] at htotals
        rw [htotals]
        exact hfits
      · exact ih hrest
    · rw [fit, if_neg hfits] at h
      exact absurd rfl h

/-- A row that does not fit is taken all the same. -/
theorem force_totals (row : List Bytes) (rows : List (List Bytes)) (b n : Nat) :
    let k := force row (fit lim b n (row :: rows))
    k.2 = (b + k.1, n + runeCount (((row :: rows).take k.1).flatMap renderRow)) ∧
      k.1 ≤ (row :: rows).length := by
  intro k
  obtain ⟨htotals, hle⟩ := fit_totals lim (row :: rows) b n
  by_cases hzero : (fit lim b n (row :: rows)).1 = 0
  · have hk : k = (1, b + 1, n + runeCount (renderRow row)) := by
      rw [hzero] at htotals
      have hforce : k = _ := if_pos hzero
      rw [hforce, htotals]
      rfl
    rw [hk]
    simp
  · have hk : k = fit lim b n (row :: rows) := if_neg hzero
    rw [hk]
    exact ⟨htotals, hle⟩

end Fit

section Limits

variable (intro : Bytes) (lim : MessageLimits)

/-- The `i`th body is within the limits, with the room for the part line and the introduction of the
first. -/
def Within (i : Nat) (body : List Chunk) : Prop :=
  (1 + blocksOf body : Nat) ≤ lim.blocks ∧
    (partRoom + 7 + (if i = 0 then runeCount intro else 0) + runeCount (body.flatMap Chunk.text) :
      Nat) ≤ lim.runes

instance (i : Nat) (body : List Chunk) : Decidable (Within intro lim i body) :=
  inferInstanceAs (Decidable (_ ∧ _))

/-- The introduction and the room for the part line fit the limits, with a heading and a row. -/
structure Fits (sections : List Section) : Prop where
  lead : Within intro lim 0 []
  row : ∀ s ∈ sections, ∀ row ∈ s.rows, Within intro lim 0 [⟨s, [row]⟩]

variable {intro lim} {i : Nat} {body : List Chunk}

theorem Within.later (h : Within intro lim 0 body) : Within intro lim i body := by
  refine ⟨h.1, Int.le_trans (Int.ofNat_le.2 ?_) h.2⟩
  rw [if_pos rfl]
  split <;> omega

/-- The totals are those of the message, and are within the limits; so are the messages before. -/
structure Kept (intro : Bytes) (lim : MessageLimits) (p : Packing) : Prop where
  blocks : p.blocks = 1 + blocksOf p.cur
  runes : p.runes = partRoom + 7 + (if p.bodies.length = 0 then runeCount intro else 0) +
    runeCount (p.cur.flatMap Chunk.text)
  fits : p.blocks ≤ lim.blocks ∧ p.runes ≤ lim.runes
  within : ∀ i body, p.bodies[i]? = some body → Within intro lim i body

theorem Kept.all {p : Packing} (h : Kept intro lim p) (hi : p.all[i]? = some body) :
    Within intro lim i body := by
  rw [Packing.all, List.getElem?_append] at hi
  split at hi
  · exact h.within i body hi
  · have hcur := h.fits
    rw [h.blocks, h.runes] at hcur
    rename_i hnot
    obtain ⟨hlt, heq⟩ := List.getElem?_eq_some_iff.1 hi
    obtain rfl : i = p.bodies.length := by
      rw [List.length_singleton] at hlt
      omega
    obtain rfl : body = p.cur := by simpa using heq.symm
    exact hcur

theorem kept_start {bodies : List (List Chunk)} (h : Within intro lim 0 [])
    (hbodies : ∀ i body, bodies[i]? = some body → Within intro lim i body) :
    Kept intro lim (start intro bodies) := by
  have hrunes : (start intro bodies).runes =
      partRoom + 7 + (if bodies.length = 0 then runeCount intro else 0) + 0 := by
    simp [start]
  refine ⟨rfl, hrunes, ?_, hbodies⟩
  rw [hrunes]
  exact h.later

variable {p : Packing} {s : Section} {row : List Bytes} {rows : List (List Bytes)}

theorem Kept.write {totals : Nat × Nat} (h : Kept intro lim p)
    (hblocks : totals.1 = p.blocks + s.headBlocks + rows.length)
    (hrunes : totals.2 = p.runes + runeCount s.head + 8 + runeCount (rows.flatMap renderRow))
    (hfits : totals.1 ≤ lim.blocks ∧ totals.2 ≤ lim.runes) :
    Kept intro lim (p.write s rows totals) := by
  refine ⟨?_, ?_, hfits, h.within⟩
  · show totals.1 = 1 + blocksOf (p.cur ++ [⟨s, rows⟩])
    rw [hblocks, blocksOf_concat, Chunk.blocks, h.blocks]
    exact (Nat.add_assoc ..).trans (Nat.add_assoc ..)
  · have htext : runeCount ((p.cur ++ [Chunk.mk s rows]).flatMap Chunk.text) =
        runeCount (p.cur.flatMap Chunk.text) +
          (runeCount s.head + 8 + runeCount (rows.flatMap renderRow)) := by
      have htagged : Tagged ([Chunk.mk s rows].flatMap Chunk.text) := tagged_flatMap Chunk.text_tagged _
      rw [List.flatMap_append, runeCount_append htagged, List.flatMap_singleton, runeCount_chunk]
    show totals.2 = partRoom + 7 + (if p.bodies.length = 0 then runeCount intro else 0) +
      runeCount ((p.cur ++ [Chunk.mk s rows]).flatMap Chunk.text)
    rw [htext, hrunes, h.runes]
    omega

/-- The totals of the rows taken are within the limits: they fit, or it is one row of a message that
has nothing else. -/
theorem Kept.force_le (h : Kept intro lim p) (hrow : Within intro lim 0 [⟨s, [row]⟩])
    {f : Nat × Nat × Nat}
    (hf : f = fit lim (p.blocks + s.headBlocks) (p.runes + runeCount s.head + 8) (row :: rows))
    (hcur : ¬ (f.1 = 0 ∧ p.cur ≠ [])) :
    (force row f).2.1 ≤ lim.blocks ∧ (force row f).2.2 ≤ lim.runes := by
  by_cases hzero : f.1 = 0
  · have hnil : p.cur = [] := Classical.not_not.1 fun hne => hcur ⟨hzero, hne⟩
    have htotals := (fit_totals lim (row :: rows) (p.blocks + s.headBlocks)
      (p.runes + runeCount s.head + 8)).1
    rw [← hf, hzero] at htotals
    have hblocks := h.blocks
    have hrunes := h.runes
    rw [hnil] at hblocks hrunes
    rw [force, if_pos hzero, htotals, hblocks, hrunes]
    obtain ⟨hb, hn⟩ := (hrow.later : Within intro lim p.bodies.length _)
    rw [List.flatMap_singleton, runeCount_chunk] at hn
    refine ⟨Int.le_trans (Int.ofNat_le.2 ?_) hb, Int.le_trans (Int.ofNat_le.2 ?_) hn⟩
    · show 1 + 0 + s.headBlocks + 0 + 1 ≤ 1 + (s.headBlocks + 1 + 0)
      omega
    · show _ + 0 + runeCount s.head + 8 + 0 + runeCount (renderRow row) ≤
        _ + (runeCount s.head + 8 + runeCount ([row].flatMap renderRow))
      rw [List.flatMap_singleton]
      omega
  · rw [force, if_neg hzero, hf]
    exact fit_le lim (hf ▸ hzero)

theorem Kept.packRows (h : Kept intro lim p) (hlead : Within intro lim 0 [])
    (hrows : ∀ row ∈ rows, Within intro lim 0 [⟨s, [row]⟩]) :
    Kept intro lim (packRows intro lim s rows p) := by
  fun_induction Refused.packRows intro lim s rows p with
  | case1 p => exact h
  | case2 row rows p f hflush ih => exact ih (kept_start hlead fun i body => h.all) hrows
  | case3 row rows p f hcur k rest q ih =>
    have hq : Kept intro lim q := by
      obtain ⟨htotals, hle⟩ := force_totals lim row rows (p.blocks + s.headBlocks)
        (p.runes + runeCount s.head + 8)
      refine h.write ?_ (congrArg Prod.snd htotals)
        (h.force_le (hrows row List.mem_cons_self) rfl hcur)
      rw [List.length_take_of_le hle]
      exact congrArg Prod.fst htotals
    refine ih ?_ fun row hrow => hrows row (List.mem_of_mem_drop hrow)
    rw [Packing.next]
    split
    · exact kept_start hlead fun i body => hq.all
    · exact hq

theorem Fits.within {sections : List Section} (h : Fits intro lim sections)
    (hi : (packBodies intro lim sections)[i]? = some body) : Within intro lim i body := by
  suffices hkept : ∀ p : Packing, Kept intro lim p →
      Kept intro lim (sections.foldl (fun p s => Refused.packRows intro lim s s.rows p) p) from
    (hkept _ (kept_start h.lead (by simp))).all hi
  have hrow := h.row
  clear hi
  induction sections with
  | nil => exact fun p hp => hp
  | cons s sections ih =>
    obtain ⟨hs, hsections⟩ := List.forall_mem_cons.1 hrow
    exact fun p hp => ih ⟨h.lead, hsections⟩ hsections _ (hp.packRows h.lead hs)

theorem runeCount_partLine (i n : Nat) :
    runeCount (partLine i n) = 9 + (Json.decimal i).length + (Json.decimal n).length := by
  have hdecimal {m : Nat} {b : UInt8} (h : b ∈ Json.decimal m) : b < 0x80 := by
    have hdigit := isDigit_of_mem_decimal h
    simp only [Json.isDigit, decide_eq_true_eq] at hdigit
    exact Nat.lt_of_le_of_lt (UInt8.le_iff_toNat_le.1 hdigit.2) (by decide)
  have hascii : ∀ b ∈ partLine i n, b < 0x80 := by
    intro b hb
    simp only [partLine, List.mem_append] at hb
    rcases hb with ((hb | hb) | hb) | hb
    · exact (by decide +kernel : ∀ b ∈ ascii "Part ".toList, b < 0x80) b hb
    · exact hdecimal hb
    · exact (by decide +kernel : ∀ b ∈ ascii " of ".toList, b < 0x80) b hb
    · exact hdecimal hb
  have hcount := runeCount_ascii_append (y := []) hascii
  rw [List.append_nil] at hcount
  rw [hcount, partLine, List.length_append, List.length_append, List.length_append]
  show 5 + _ + 4 + _ + 0 = _
  omega

/-- The part line fits the room for it, also with the break that follows it in the first message. -/
theorem runeCount_header {n i : Nat} (hi : i < n)
    (h : 1 < n → ∀ i < n, runeCount (partLine (i + 1) n) ≤ partRoom) :
    runeCount (header intro n i) ≤ partRoom + if i = 0 then runeCount intro else 0 := by
  rw [header]
  by_cases hn : 1 < n
  · rw [if_pos hn]
    by_cases hfirst : i = 0
    · -- the last line has the number of messages twice, so the first has room left
      have hlast := h hn (n - 1) (by omega)
      rw [Nat.sub_add_cancel (Nat.le_of_lt hn), runeCount_partLine, partRoom] at hlast
      have hjoin : br.intercalate [partLine (i + 1) n, intro] =
          partLine (i + 1) n ++ (br ++ intro) := by simp [List.intercalate]
      have hbr : Tagged (br ++ intro) := by
        rintro b ⟨⟩
        rfl
      have hone : (Json.decimal (0 + 1)).length = 1 := rfl
      rw [if_pos hfirst, if_pos hfirst, List.singleton_append, hjoin, runeCount_append hbr,
        runeCount_ascii_append (by decide +kernel), runeCount_partLine, hfirst, hone, partRoom]
      show _ + (4 + _) ≤ _
      omega
    · simpa [hfirst, List.intercalate] using h hn i hi
  · rw [if_neg hn, if_pos (by omega : i = 0), if_pos (by omega : i = 0)]
    simp [List.intercalate]

theorem runeCount_message (n i : Nat) (body : List Chunk) : runeCount (message intro n i body) =
    7 + runeCount (header intro n i) + runeCount (body.flatMap Chunk.text) := by
  have htext : Tagged (body.flatMap Chunk.text) := tagged_flatMap Chunk.text_tagged _
  have hclose : Tagged (ascii "</p>".toList ++ body.flatMap Chunk.text) := by
    rintro b ⟨⟩
    rfl
  rw [message, runeCount_ascii_append (by decide +kernel), runeCount_append hclose,
    runeCount_ascii_append (by decide +kernel)]
  show 3 + (_ + (4 + _)) = _
  omega

end Limits

/-- **The report shows every attempt once, within the limits.**  The rows of the messages, one after
the other, are one for each group of attempts, below the heading of its section; those of a section
are in the order of the groups, and the tries add up to the number of attempts.  If the introduction
and the room for the part line fit the limits with any heading and one of its rows, and the part
lines fit their room, then every message fits the limits. -/
theorem report_conserved (r : Report) (lead : List Bytes) (lim : MessageLimits) :
    let sections := r.byApp (groupByDay r.zone r.fresh)
    let bodies := packBodies (joinLead lead) lim sections
    (∃ order : List GroupKey, order.Nodup ∧
      (∀ k, k ∈ order ↔ ∃ f ∈ r.fresh, groupKey r.zone f = k) ∧
      placed bodies = order.map r.rowOf ∧
      ∀ k ∈ order, order.filter (·.appVariant = k.appVariant) =
        r.keys.filter (·.appVariant = k.appVariant)) ∧
    total (fun row => Report.tries row.2.2) (placed bodies) = r.fresh.length ∧
    pack lead sections lim = bodies.mapIdx (message (joinLead lead) bodies.length) ∧
    (Fits (joinLead lead) lim sections →
      (1 < bodies.length → ∀ i < bodies.length,
        runeCount (partLine (i + 1) bodies.length) ≤ partRoom) →
      ∀ i body, bodies[i]? = some body →
        runeCount (message (joinLead lead) bodies.length i body) ≤ lim.runes ∧
        (1 + blocksOf body : Nat) ≤ lim.blocks) := by
  intro sections bodies
  obtain ⟨heads, hheads, hmem, hplaced⟩ := r.placed_sections
  have hperm := perm_groups hheads hmem
  have hkeys : ∀ k, k ∈ (heads.flatMap fun h => r.keys.filter (·.appVariant = h)) ↔
      ∃ f ∈ r.fresh, groupKey r.zone f = k := fun k => hperm.mem_iff.trans r.mem_keys
  have hnodup := hperm.nodup_iff.2 r.nodup_keys
  have hbodies : placed bodies = _ := (placed_packBodies sections).trans hplaced
  refine ⟨⟨_, hnodup, hkeys, hbodies, fun k hk => ?_⟩, ?_, rfl, fun hfits hparts i body hi => ?_⟩
  · exact filter_groups hheads (hmem k (hperm.mem_iff.1 hk))
  · rw [hbodies, total_map, total_congr fun k _ => r.tries_rowOf k]
    exact total_length hnodup fun f hf => (hkeys _).2 ⟨f, hf, rfl⟩
  · obtain ⟨hblocks, hrunes⟩ := hfits.within hi
    obtain ⟨hlt, -⟩ := List.getElem?_eq_some_iff.1 hi
    have hheader : runeCount (header (joinLead lead) bodies.length i) ≤ _ :=
      runeCount_header hlt hparts
    refine ⟨?_, hblocks⟩
    rw [runeCount_message]
    omega

/-- A report of two attempts. -/
def sampleReport : Report where
  zone := ⟨fun _ => [49], fun _ => 0, fun _ => [49], fun _ => [50]⟩
  hidden _ := false
  lastReport := []
  known _ := false
  fresh := [([97], ⟨0, [49], [], 0, false⟩), ([97], ⟨0, [50], [], 0, false⟩)]

/-- With six blocks for each it takes two messages. -/
theorem report_conserved_sample :
    let sections := sampleReport.byApp (groupByDay sampleReport.zone sampleReport.fresh)
    let bodies := packBodies (joinLead []) ⟨6, 300⟩ sections
    bodies.length = 2 ∧ ∀ i body, bodies[i]? = some body →
      (runeCount (message (joinLead []) bodies.length i body) : Int) ≤ 300 ∧
      ((1 + blocksOf body : Nat) : Int) ≤ 6 := by
  intro sections bodies
  have hlength : bodies.length = 2 := by decide +kernel
  refine ⟨hlength, (report_conserved sampleReport [] ⟨6, 300⟩).2.2.2
    ⟨by decide +kernel, by decide +kernel⟩ fun _ => ?_⟩
  show ∀ i < bodies.length, runeCount (partLine (i + 1) bodies.length) ≤ partRoom
  rw [hlength]
  decide +kernel

end Tunneld.Refused

import Tunneld.Lib.Group
import Tunneld.Lib.Lines
import Tunneld.Refused.Attempts

/-!
# The metrics of refused attempts

The attempts of the list are counted by app, signing key, version and address, and written as
samples of three metrics in the text format of Prometheus.  `readText` is how a scraper reads the
format: it gives back what was written (`readText_metrics`), with labels that are the UTF-8 forms of
the strings counted by.

The strings are counted as they are, and `strings.ToValidUTF8` makes the same label of strings that
differ.  So two samples may be of the same series (`same_series`): they are all distinct exactly if
attempts that are counted apart have labels that differ (`Apart`, `series_distinct`).
-/

namespace Tunneld.Refused

open Utf8 Group

/-! ## Rows -/

structure RowKey where
  app : Bytes
  key : Bytes
  version : Int
  ip : Bytes
  deriving DecidableEq

structure Row extends RowKey where
  count : Nat
  firstSeen : Int
  lastSeen : Int
  deriving DecidableEq

def rowKey (p : Bytes × Attempt) : RowKey := ⟨p.1, p.2.key, p.2.version, p.2.ip⟩

/-- `Time.Unix`. -/
def unix (t : Nat) : Int := (t / 1000000000 : Nat) - 62135596800

/-- The row of a key after one attempt more. -/
def Row.seen (r : Option Row) (p : Bytes × Attempt) : Row :=
  let t := unix p.2.time
  let r := r.getD ⟨rowKey p, 0, t, t⟩
  { r with count := r.count + 1, firstSeen := min r.firstSeen t, lastSeen := max r.lastSeen t }

/-- The order of the rows. -/
def RowKey.le (a b : RowKey) : Bool :=
  if a.app ≠ b.app then leBytes a.app b.app
  else if a.key ≠ b.key then leBytes a.key b.key
  else if a.version ≠ b.version then a.version ≤ b.version
  else leBytes a.ip b.ip

def rows (list : AttemptList) : List Row :=
  ((group rowKey Row.seen list.attempts).map Prod.snd).insertionSort fun a b =>
    a.toRowKey.le b.toRowKey = true

/-! ## The text -/

/-- `%d`. -/
def formatInt (n : Int) : Bytes :=
  if n < 0 then 45 :: Json.decimal n.natAbs else Json.decimal n.natAbs

/-- The replacer of `labelValue`. -/
def escapeByte (b : UInt8) : Bytes :=
  if b = 92 then [92, 92] else if b = 34 then [92, 34] else if b = 10 then [92, 110] else [b]

def labelValue (s : Bytes) : Bytes := (toValid s).flatMap escapeByte

structure Family where
  name : Bytes
  help : Bytes
  value : Row → Int

def attemptsFamily : Family where
  name := ascii "arc_refused_app_attempts".toList
  help := ascii ("Refused enrollment attempts per app, signing key, app version and source " ++
    "address.").toList
  value r := r.count

def firstSeenFamily : Family where
  name := ascii "arc_refused_app_first_seen_timestamp_seconds".toList
  help := ascii ("Time of the first refused enrollment attempt per app, signing key, app version " ++
    "and source address.").toList
  value r := r.firstSeen

def lastSeenFamily : Family where
  name := ascii "arc_refused_app_last_seen_timestamp_seconds".toList
  help := ascii ("Time of the last refused enrollment attempt per app, signing key, app version " ++
    "and source address.").toList
  value r := r.lastSeen

def families : List Family := [attemptsFamily, firstSeenFamily, lastSeenFamily]

def Family.header (f : Family) : List Bytes :=
  [ascii "# HELP ".toList ++ f.name ++ ascii " ".toList ++ f.help,
    ascii "# TYPE ".toList ++ f.name ++ ascii " gauge".toList]

def Family.sample (f : Family) (r : Row) : Bytes :=
  f.name ++ (ascii "\x7bapp=\"".toList ++ (labelValue r.app ++ (ascii "\",key=\"".toList ++
    (labelValue r.key ++ (ascii "\",version=\"".toList ++ (formatInt r.version ++
      (ascii "\",ip=\"".toList ++ (labelValue r.ip ++ (ascii "\"\x7d ".toList ++
        formatInt (f.value r))))))))))

def metrics (list : AttemptList) : Bytes :=
  Lines.join 10 (families.flatMap fun f => f.header ++ (rows list).map f.sample)

/-! ## Reading the text -/

/-- The series of a sample: the metric, and what its labels are when they have been unescaped. -/
structure Series where
  metric : Bytes
  app : Bytes
  key : Bytes
  version : Bytes
  ip : Bytes
  deriving DecidableEq

structure Sample where
  series : Series
  value : Int
  deriving DecidableEq

/-- A label up to the quote that ends it, unescaped, and what follows. -/
def readQuoted : Bytes → Option (Bytes × Bytes)
  | [] => none
  | 34 :: s => some ([], s)
  | 92 :: c :: s => (readQuoted s).map fun p => ((if c = 110 then 10 else c) :: p.1, p.2)
  | b :: s => (readQuoted s).map fun p => (b :: p.1, p.2)

/-- A label after what comes before it. -/
def readLabel (lit s : Bytes) : Option (Bytes × Bytes) := (s.dropPrefix? lit).bind readQuoted

def readInt (s : Bytes) : Option Int :=
  let n := Json.parseNat 0 (if s.head? = some 45 then s.tail else s)
  if n.2 = [] then some (if s.head? = some 45 then -n.1 else n.1) else none

def readSample (s : Bytes) : Option Sample :=
  (readLabel (ascii "\x7bapp=\"".toList) (s.dropWhile (· ≠ 123))).bind fun app =>
  (readLabel (ascii ",key=\"".toList) app.2).bind fun key =>
  (readLabel (ascii ",version=\"".toList) key.2).bind fun version =>
  (readLabel (ascii ",ip=\"".toList) version.2).bind fun ip =>
  (ip.2.dropPrefix? (ascii "\x7d ".toList)).bind fun value =>
  (readInt value).map fun n =>
    ⟨⟨s.takeWhile (· ≠ 123), app.1, key.1, version.1, ip.1⟩, n⟩

/-- The samples of the lines that are not comments. -/
def readText (s : Bytes) : Option (List Sample) :=
  ((Lines.split 10 s).1.filter fun l => l.head? ≠ some 35).mapM readSample

section Read

theorem readQuoted_escape (s rest : Bytes) :
    readQuoted (s.flatMap escapeByte ++ 34 :: rest) = some (s, rest) := by
  induction s with
  | nil => rfl
  | cons b s ih =>
    rw [List.flatMap_cons, List.append_assoc]
    by_cases hslash : b = 92
    · subst hslash
      simp [escapeByte, readQuoted, ih]
    by_cases hquote : b = 34
    · subst hquote
      simp [escapeByte, readQuoted, ih]
    by_cases hline : b = 10
    · subst hline
      simp [escapeByte, readQuoted, ih]
    rw [escapeByte, if_neg hslash, if_neg hquote, if_neg hline, List.singleton_append]
    cases hs : s.flatMap escapeByte ++ 34 :: rest with
    | nil => simp at hs
    | cons c l =>
      rw [readQuoted, ← hs, ih]
      · rfl
      all_goals simp [hslash, hquote]

theorem isDigit_of_mem_decimal {n : Nat} {b : UInt8} (h : b ∈ Json.decimal n) :
    Json.isDigit b = true := by
  rw [Json.decimal] at h
  generalize n + 1 = w at h
  induction w generalizing n with
  | zero => cases h
  | succ w ih =>
    rw [Json.decimalUpTo, List.mem_append, List.mem_singleton] at h
    rcases h with h | rfl
    · split at h
      · cases h
      · exact ih h
    · exact (Json.isDigit_digit (Nat.mod_lt n (by decide))).1

theorem escape_formatInt (n : Int) : (formatInt n).flatMap escapeByte = formatInt n := by
  have hdigit {b : UInt8} (h : Json.isDigit b = true) : escapeByte b = [b] := by
    rw [escapeByte, if_neg, if_neg, if_neg] <;> rintro rfl <;> exact absurd h (by decide)
  have hdecimal (m : Nat) : (Json.decimal m).flatMap escapeByte = Json.decimal m := by
    rw [List.flatMap_congr fun b hb => hdigit (isDigit_of_mem_decimal hb), List.flatMap_singleton']
  rw [formatInt]
  split
  · rw [List.flatMap_cons, hdecimal]
    rfl
  · exact hdecimal _

theorem readInt_formatInt (n : Int) : readInt (formatInt n) = some n := by
  have hparse (m : Nat) : Json.parseNat 0 (Json.decimal m) = (m, []) := by
    simpa [Json.parseNat, Json.decimal] using Json.parseNat_decimalUpTo (Nat.lt_succ_self m) []
  obtain ⟨a, l, ha, hl⟩ := Json.exists_decimal n.natAbs
  have hne : a ≠ 45 := by
    rintro rfl
    cases ha
  by_cases hneg : n < 0
  · rw [formatInt, if_pos hneg, readInt]
    simp only [List.head?_cons, List.tail_cons, if_true, hparse]
    exact congrArg some (by omega)
  · have hhead : (Json.decimal n.natAbs).head? ≠ some 45 := by simpa [hl] using hne
    rw [formatInt, if_neg hneg, readInt]
    simp only [if_neg hhead, hparse, if_true]
    exact congrArg some (by omega)

theorem readLabel_escape (lit s rest : Bytes) :
    readLabel lit (lit ++ (s.flatMap escapeByte ++ 34 :: rest)) = some (s, rest) := by
  have hdrop : (lit ++ (s.flatMap escapeByte ++ 34 :: rest)).dropPrefix? lit =
      some (s.flatMap escapeByte ++ 34 :: rest) :=
    List.dropPrefix?_eq_some_iff.2 ⟨lit, rfl, beq_self_eq_true lit⟩
  rw [readLabel, hdrop, Option.bind_some, readQuoted_escape]

variable {f : Family} {r : Row}

/-- What a scraper reads of a row. -/
def Family.read (f : Family) (r : Row) : Sample :=
  ⟨⟨f.name, toValid r.app, toValid r.key, formatInt r.version, toValid r.ip⟩, f.value r⟩

theorem readSample_sample (h : 123 ∉ f.name) : readSample (f.sample r) = some (f.read r) := by
  have hname (s : Bytes) : (f.name ++ 123 :: s).takeWhile (· ≠ 123) = f.name ∧
      (f.name ++ 123 :: s).dropWhile (· ≠ 123) = 123 :: s := by
    have hall : ∀ b ∈ f.name, decide (b ≠ 123) = true := fun b hb =>
      decide_eq_true fun heq => h (heq ▸ hb)
    rw [List.takeWhile_append_of_pos hall, List.dropWhile_append_of_pos hall]
    simp
  have hbrace (s : Bytes) : ascii "\x7bapp=\"".toList ++ s = 123 :: (ascii "app=\"".toList ++ s) :=
    rfl
  -- the quote that ends a label is written with what follows it
  have hkey (s : Bytes) : ascii "\",key=\"".toList ++ s = 34 :: (ascii ",key=\"".toList ++ s) := rfl
  have hversion (s : Bytes) :
      ascii "\",version=\"".toList ++ s = 34 :: (ascii ",version=\"".toList ++ s) := rfl
  have hip (s : Bytes) : ascii "\",ip=\"".toList ++ s = 34 :: (ascii ",ip=\"".toList ++ s) := rfl
  have hend (s : Bytes) : ascii "\"\x7d ".toList ++ s = 34 :: (ascii "\x7d ".toList ++ s) := rfl
  have hvalue (s : Bytes) : (ascii "\x7d ".toList ++ s).dropPrefix? (ascii "\x7d ".toList) = some s :=
    List.dropPrefix?_eq_some_iff.2 ⟨_, rfl, beq_self_eq_true _⟩
  rw [Family.sample, readSample, hbrace, (hname _).1, (hname _).2, ← hbrace, labelValue, hkey,
    readLabel_escape, Option.bind_some, labelValue, hversion, readLabel_escape, Option.bind_some,
    ← escape_formatInt r.version, hip, readLabel_escape, Option.bind_some, labelValue, hend,
    readLabel_escape, Option.bind_some, hvalue, Option.bind_some, readInt_formatInt, Option.map_some]
  rfl

theorem not_mem_escape (s : Bytes) : 10 ∉ s.flatMap escapeByte := by
  intro h
  obtain ⟨b, -, hb⟩ := List.mem_flatMap.1 h
  rw [escapeByte] at hb
  grind

/-- The names and helps of the families are lines, and do not look like comments or labels. -/
theorem families_plain {f : Family} (h : f ∈ families) : 123 ∉ f.name ∧ 10 ∉ f.name ∧ 10 ∉ f.help ∧
    ∃ b s, f.name = b :: s ∧ b ≠ 35 := by
  simp only [families, List.mem_cons, List.not_mem_nil, or_false] at h
  obtain rfl | rfl | rfl := h <;> exact ⟨by decide, by decide, by decide, _, _, rfl, by decide⟩

theorem mapM_map {α β γ : Type} {f : β → Option γ} {g : α → β} {k : α → γ} {l : List α}
    (h : ∀ a ∈ l, f (g a) = some (k a)) : (l.map g).mapM f = some (l.map k) := by
  induction l with
  | nil => rfl
  | cons a l ih =>
    obtain ⟨ha, hl⟩ := List.forall_mem_cons.1 h
    rw [List.map_cons, List.mapM_cons, ha, ih hl]
    rfl

theorem readText_metrics (list : AttemptList) :
    readText (metrics list) = some (families.flatMap fun f => (rows list).map f.read) := by
  have hlines : ∀ l ∈ families.flatMap fun f => f.header ++ (rows list).map f.sample, 10 ∉ l := by
    intro l hl
    obtain ⟨f, hf, hl⟩ := List.mem_flatMap.1 hl
    obtain ⟨-, hname, hhelp, -⟩ := families_plain hf
    rcases List.mem_append.1 hl with hl | hl
    · simp only [Family.header, List.mem_cons, List.not_mem_nil, or_false] at hl
      obtain rfl | rfl := hl <;> simp only [List.mem_append, hname, hhelp, not_or, or_false] <;>
        decide
    · obtain ⟨r, -, rfl⟩ := List.mem_map.1 hl
      rw [Family.sample, labelValue, labelValue, labelValue, ← escape_formatInt r.version,
        ← escape_formatInt (f.value r)]
      simp only [List.mem_append, hname, not_mem_escape, false_or, or_false]
      decide
  have hfilter : (families.flatMap fun f => f.header ++ (rows list).map f.sample).filter
      (fun l => l.head? ≠ some 35) = families.flatMap fun f => (rows list).map f.sample := by
    rw [List.filter_flatMap]
    refine List.flatMap_congr fun f hf => ?_
    obtain ⟨-, -, -, b, s, hname, hb⟩ := families_plain hf
    rw [List.filter_append, List.filter_eq_nil_iff.2, List.filter_eq_self.2]
    · rfl
    · intro l hl
      obtain ⟨r, -, rfl⟩ := List.mem_map.1 hl
      simp [Family.sample, hname, hb]
    · intro l hl
      simp only [Family.header, List.mem_cons, List.not_mem_nil, or_false] at hl
      obtain rfl | rfl := hl <;> simp [ascii]
  have hsplit := Lines.split_join hlines (List.not_mem_nil (a := 10))
  rw [List.append_nil] at hsplit
  have hpairs {β : Type} (g : Family → Row → β) : (families.flatMap fun f => (rows list).map (g f)) =
      (families.flatMap fun f => (rows list).map (Prod.mk f)).map fun p => g p.1 p.2 := by
    rw [List.map_flatMap]
    simp only [List.map_map]
    rfl
  rw [readText, metrics, hsplit, hfilter, hpairs Family.sample, hpairs Family.read]
  refine mapM_map fun p hp => ?_
  obtain ⟨f, hf, hp⟩ := List.mem_flatMap.1 hp
  obtain ⟨r, -, rfl⟩ := List.mem_map.1 hp
  exact readSample_sample (families_plain hf).1

end Read

/-! ## The series -/

/-- A key as its labels show it. -/
def RowKey.clean (k : RowKey) : RowKey := ⟨toValid k.app, toValid k.key, k.version, toValid k.ip⟩

/-- Attempts that are counted apart are told apart by their labels. -/
def Apart (list : AttemptList) : Prop :=
  ∀ p ∈ list.attempts, ∀ q ∈ list.attempts, (rowKey p).clean = (rowKey q).clean → rowKey p = rowKey q

theorem Apart.of_valid {list : AttemptList}
    (h : ∀ p ∈ list.attempts, Valid p.1 ∧ Valid p.2.key ∧ Valid p.2.ip) : Apart list := by
  have hclean : ∀ p ∈ list.attempts, (rowKey p).clean = rowKey p := by
    intro p hp
    obtain ⟨happ, hkey, hip⟩ := h p hp
    rw [rowKey, RowKey.clean, toValid_of_valid happ, toValid_of_valid hkey, toValid_of_valid hip]
  intro p hp q hq heq
  rwa [hclean p hp, hclean q hq] at heq

section Series

variable (list : AttemptList)

/-- The row of a key has the key, and the number of its attempts. -/
theorem row_of_key {p : RowKey × Row} (h : p ∈ group rowKey Row.seen list.attempts) :
    p.2.toRowKey = p.1 ∧ p.2.count = (list.attempts.filter (rowKey · = p.1)).length := by
  refine of_mem_group rowKey Row.seen (P := fun k l r => r.toRowKey = k ∧ r.count = l.length)
    (fun p => ⟨rfl, rfl⟩) ?_ h
  rintro l p r ⟨hkey, hcount⟩
  exact ⟨hkey, by simp [Row.seen, hcount]⟩

theorem rows_perm : (rows list).Perm ((group rowKey Row.seen list.attempts).map Prod.snd) :=
  List.perm_insertionSort _ _

theorem keys_perm : ((rows list).map Row.toRowKey).Perm
    ((group rowKey Row.seen list.attempts).map Prod.fst) := by
  refine ((rows_perm list).map _).trans (.of_eq ?_)
  rw [List.map_map]
  exact List.map_congr_left fun p hp => (row_of_key list hp).1

theorem total_count : total attemptsFamily.value (rows list) = list.attempts.length := by
  rw [total_perm (rows_perm list), total_map]
  have hgroups := total_congr (f := fun p : RowKey × Row => attemptsFamily.value p.2)
    (g := fun p => ((list.attempts.filter (rowKey · = p.1)).length : Int))
    fun p hp => congrArg Int.ofNat (row_of_key list hp).2
  rw [hgroups, ← total_map (fun k => ((list.attempts.filter (rowKey · = k)).length : Int)) Prod.fst]
  exact total_length (nodup_group _ _ _) fun p hp =>
    (mem_keys_group rowKey Row.seen).2 ⟨p, hp, rfl⟩

theorem exists_row {k : RowKey} :
    (∃ r ∈ rows list, r.toRowKey = k) ↔ ∃ p ∈ list.attempts, rowKey p = k := by
  rw [← mem_keys_group rowKey Row.seen, ← (keys_perm list).mem_iff, List.mem_map]

theorem formatInt_injective : Function.Injective formatInt := fun n m h => by
  simpa [readInt_formatInt] using congrArg readInt h

theorem read_series_eq_iff {f : Family} {r r' : Row} :
    (f.read r).series = (f.read r').series ↔ r.toRowKey.clean = r'.toRowKey.clean := by
  simp only [Family.read, RowKey.clean, Series.mk.injEq, RowKey.mk.injEq, true_and,
    formatInt_injective.eq_iff]

theorem nodup_series_iff (f : Family) :
    (((rows list).map f.read).map Sample.series).Nodup ↔ Apart list := by
  have hkeys : ((rows list).map Row.toRowKey).Nodup :=
    (keys_perm list).nodup_iff.2 (nodup_group _ _ _)
  rw [List.map_map, List.nodup_map_iff_inj_on (List.Nodup.of_map _ hkeys)]
  simp only [Function.comp_apply, read_series_eq_iff]
  constructor
  · intro h p hp q hq heq
    obtain ⟨r, hr, hrp⟩ := (exists_row list).2 ⟨p, hp, rfl⟩
    obtain ⟨r', hr', hrq⟩ := (exists_row list).2 ⟨q, hq, rfl⟩
    rw [← hrp, ← hrq] at heq ⊢
    rw [h r hr r' hr' heq]
  · intro h r hr r' hr' heq
    obtain ⟨p, hp, hpr⟩ := (exists_row list).1 ⟨r, hr, rfl⟩
    obtain ⟨q, hq, hqr⟩ := (exists_row list).1 ⟨r', hr', rfl⟩
    rw [← hpr, ← hqr] at heq
    exact List.inj_on_of_nodup_map hkeys hr hr' (hpr ▸ hqr ▸ h p hp q hq heq)

theorem total_attempts : total Sample.value ((families.flatMap fun f => (rows list).map f.read).filter
    fun s => s.series.metric = attemptsFamily.name) = list.attempts.length := by
  have hown : ((rows list).map attemptsFamily.read).filter
      (fun s => s.series.metric = attemptsFamily.name) = (rows list).map attemptsFamily.read := by
    refine List.filter_eq_self.2 fun s hs => ?_
    obtain ⟨r, -, rfl⟩ := List.mem_map.1 hs
    exact decide_eq_true rfl
  have hother {f : Family} (hf : f.name ≠ attemptsFamily.name) : ((rows list).map f.read).filter
      (fun s => s.series.metric = attemptsFamily.name) = [] := by
    refine List.filter_eq_nil_iff.2 fun s hs => ?_
    obtain ⟨r, -, rfl⟩ := List.mem_map.1 hs
    exact fun h => hf (of_decide_eq_true h)
  rw [families, List.flatMap_cons, List.flatMap_cons, List.flatMap_cons, List.flatMap_nil,
    List.filter_append, List.filter_append, List.filter_append, hown, hother (by decide),
    hother (by decide), List.filter_nil, List.append_nil, List.append_nil, List.append_nil, total_map]
  exact total_count list

/-- **The dashboard counts every attempt once.**  The text of the metrics is read back as samples
whose labels are the UTF-8 forms of the strings of an attempt, and the values of the attempts metric
add up to the number of attempts.  No two samples are of the same series exactly if attempts that
are counted apart have labels that differ. -/
theorem series_distinct : ∃ samples, readText (metrics list) = some samples ∧
    total Sample.value (samples.filter fun s => s.series.metric = attemptsFamily.name) =
      list.attempts.length ∧
    (∀ s ∈ samples, ∃ p ∈ list.attempts, s.series.app = toValid p.1 ∧
      s.series.key = toValid p.2.key ∧ s.series.version = formatInt p.2.version ∧
      s.series.ip = toValid p.2.ip) ∧
    ((samples.map Sample.series).Nodup ↔ Apart list) := by
  refine ⟨_, readText_metrics list, total_attempts list, fun s hs => ?_, ?_⟩
  · obtain ⟨f, -, hs⟩ := List.mem_flatMap.1 hs
    obtain ⟨r, hr, rfl⟩ := List.mem_map.1 hs
    obtain ⟨p, hp, hpr⟩ := (exists_row list).1 ⟨r, hr, rfl⟩
    rw [Family.read, ← hpr]
    exact ⟨p, hp, rfl, rfl, rfl, rfl⟩
  · rw [List.map_flatMap, List.nodup_flatMap]
    refine ⟨fun h => (nodup_series_iff list attemptsFamily).1 (h.1 _ (List.mem_cons_self ..)),
      fun h => ⟨fun f _ => (nodup_series_iff list f).2 h, ?_⟩⟩
    have hnames : families.Pairwise fun f g => f.name ≠ g.name := by decide
    refine hnames.imp fun {f g} hne s hs hs' => hne ?_
    obtain ⟨_, hr, rfl⟩ := List.mem_map.1 hs
    obtain ⟨r, -, rfl⟩ := List.mem_map.1 hr
    obtain ⟨_, hr', heq⟩ := List.mem_map.1 hs'
    obtain ⟨r', -, rfl⟩ := List.mem_map.1 hr'
    exact (congrArg Series.metric heq).symm

end Series

/-- Two attempts of one app. -/
theorem series_distinct_app : ∃ samples,
    readText (metrics ⟨[], AList.singleton [97] [⟨0, [], [], 0, false⟩, ⟨0, [49], [], 0, false⟩]⟩) =
      some samples ∧ (samples.map Sample.series).Nodup := by
  obtain ⟨samples, hread, -, -, hnodup⟩ := series_distinct
    ⟨[], AList.singleton [97] [⟨0, [], [], 0, false⟩, ⟨0, [49], [], 0, false⟩]⟩
  exact ⟨samples, hread, hnodup.2 (.of_valid (by decide))⟩

/-- The apps are the bytes 254 and 255, which are both written as the replacement character. -/
theorem same_series : ∃ samples, readText (metrics ⟨[], (AList.singleton [254]
      [⟨0, [], [], 0, false⟩]).insert [255] [⟨0, [], [], 0, false⟩]⟩) = some samples ∧
    ¬ (samples.map Sample.series).Nodup := by
  refine ⟨_, readText_metrics _, ?_⟩
  decide +kernel

end Tunneld.Refused

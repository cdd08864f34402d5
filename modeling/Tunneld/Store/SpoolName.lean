import Tunneld.Lib.Timestamp

/-!
# The names of connection log files

A log file is named after the instant at which it was opened and the node that opened it.  While it
is written its name ends in `.jsonl.part`; then it is renamed to end in `.jsonl`.  The key of its
object in the store has the date in front of that name.  So whether two files collide, in the
directory or in the store, is a question about instants and node ids (`eq_of_match`), and different
names have different keys (`spoolKey_inj`).
-/

namespace Tunneld.Spool

open Timestamp

/-- Text, in characters. -/
abbrev Text := List Char

def isHex (c : Char) : Bool := c.isDigit || c ∈ ['a', 'b', 'c', 'd', 'e', 'f']

/-- What `nodeIDPattern` accepts: `[0-9a-f]+`. -/
structure NodeID where
  text : Text
  ne_nil : text ≠ []
  hex : ∀ c ∈ text, isHex c = true

instance : DecidableEq NodeID := fun a b =>
  decidable_of_iff (a.text = b.text) (by cases a; cases b; simp)

def readySuffix : Text := ".jsonl".toList

def activeSuffix : Text := ".jsonl.part".toList

/-- The name of a file that can be uploaded. -/
def readyName (start : Nat) (node : NodeID) : Text :=
  stamp start ++ '-' :: (node.text ++ readySuffix)

/-- The name of a file that is being written. -/
def partName (start : Nat) (node : NodeID) : Text :=
  stamp start ++ '-' :: (node.text ++ activeSuffix)

/-- `strings.TrimSuffix(path, ".part")`. -/
def trimPart (name : Text) : Text :=
  if ".part".toList <:+ name then name.take (name.length - 5) else name

/-! ## Matching -/

/-- Whether the text matches `\d{8}T\d{6}\.\d{9}Z`. -/
def IsStamp (l : Text) : Prop :=
  l.length = 26 ∧ (l.take 8).all Char.isDigit = true ∧ l[8]? = some 'T' ∧
    ((l.drop 9).take 6).all Char.isDigit = true ∧ l[15]? = some '.' ∧
    ((l.drop 16).take 9).all Char.isDigit = true ∧ l[25]? = some 'Z'

instance (l : Text) : Decidable (IsStamp l) := inferInstanceAs (Decidable (_ ∧ _))

/-- The groups of a match. -/
structure Match where
  ts : Text
  node : Text
  part : Bool
  deriving DecidableEq

/-- `spoolName.FindStringSubmatch`. -/
def spoolName (name : Text) : Option Match :=
  if IsStamp (name.take 26) then
    match name.drop 26 with
    | '-' :: body =>
      if body.takeWhile isHex = [] then none
      else if body.dropWhile isHex = readySuffix then
        some ⟨name.take 26, body.takeWhile isHex, false⟩
      else if body.dropWhile isHex = activeSuffix then
        some ⟨name.take 26, body.takeWhile isHex, true⟩
      else none
    | _ => none
  else none

theorem isStamp_stamp (t : Nat) : IsStamp (stamp t) := by
  have hdate : (dateDigits t).length = 8 := by simp [dateDigits]
  have htime : (timeDigits t).length = 6 := by simp [timeDigits]
  have hfrac : (fracDigits t).length = 9 := by simp [fracDigits]
  have hdigits : (∀ c ∈ dateDigits t, c.isDigit = true) ∧ (∀ c ∈ timeDigits t, c.isDigit = true) ∧
      ∀ c ∈ fracDigits t, c.isDigit = true := by
    refine ⟨fun c hc => ?_, fun c hc => ?_, fun c hc => isDigit_of_mem hc⟩ <;>
    · rcases List.mem_append.1 hc with hc | hc
      · exact isDigit_of_mem hc
      · rcases List.mem_append.1 hc with hc | hc <;> exact isDigit_of_mem hc
  have h9 : (stamp t).drop 9 = timeDigits t ++ '.' :: (fracDigits t ++ ['Z']) := by
    rw [stamp, List.drop_append, hdate, List.drop_of_length_le (by omega)]
    rfl
  have h16 : (stamp t).drop 16 = fracDigits t ++ ['Z'] := by
    rw [show 16 = 9 + 7 from rfl, ← List.drop_drop, h9, List.drop_append, htime,
      List.drop_of_length_le (by omega)]
    rfl
  refine ⟨length_stamp t, ?_, ?_, ?_, ?_, ?_, ?_⟩
  · rw [stamp, List.take_left' hdate]
    exact List.all_eq_true.2 hdigits.1
  · rw [stamp, List.getElem?_append_right (by omega), hdate]
    rfl
  · rw [h9, List.take_left' htime]
    exact List.all_eq_true.2 hdigits.2.1
  · rw [show 15 = 9 + 6 from rfl, ← List.getElem?_drop, h9,
      List.getElem?_append_right (by omega), htime]
    rfl
  · rw [h16, List.take_left' hfrac]
    exact List.all_eq_true.2 hdigits.2.2
  · rw [show 25 = 16 + 9 from rfl, ← List.getElem?_drop, h16,
      List.getElem?_append_right (by omega), hfrac]
    rfl

/-- A name that ends like those of the two forms, matched. -/
theorem spoolName_of_suffix (t : Nat) (node : NodeID) {suffix : Text}
    (htake : suffix.takeWhile isHex = []) (hdrop : suffix.dropWhile isHex = suffix) :
    spoolName (stamp t ++ '-' :: (node.text ++ suffix)) =
      if suffix = readySuffix then some ⟨stamp t, node.text, false⟩
      else if suffix = activeSuffix then some ⟨stamp t, node.text, true⟩ else none := by
  have hnode : (node.text ++ suffix).takeWhile isHex = node.text := by
    rw [List.takeWhile_append_of_pos node.hex, htake, List.append_nil]
  have hrest : (node.text ++ suffix).dropWhile isHex = suffix := by
    rw [List.dropWhile_append_of_pos node.hex, hdrop]
  rw [spoolName, List.take_left' (length_stamp t), if_pos (isStamp_stamp t),
    List.drop_left' (length_stamp t)]
  simp only [hnode, hrest, if_neg node.ne_nil]

theorem spoolName_readyName (t : Nat) (node : NodeID) :
    spoolName (readyName t node) = some ⟨stamp t, node.text, false⟩ := by
  rw [readyName, spoolName_of_suffix t node (by decide) (by decide), if_pos rfl]

theorem spoolName_partName (t : Nat) (node : NodeID) :
    spoolName (partName t node) = some ⟨stamp t, node.text, true⟩ := by
  rw [partName, spoolName_of_suffix t node (by decide) (by decide), if_neg (by decide), if_pos rfl]

/-! ## Different names -/

variable {t t' : Nat} {node node' : NodeID}

theorem readyName_ne_partName : readyName t node ≠ partName t' node' := by
  intro h
  have := congrArg spoolName h
  rw [spoolName_readyName, spoolName_partName] at this
  simp at this

/-- The instant and the node are read back from a match. -/
theorem eq_of_match (ht : t < limit) (ht' : t' < limit) {b e : Bool}
    (h : some (Match.mk (stamp t) node.text b) = some ⟨stamp t', node'.text, e⟩) :
    t = t' ∧ node = node' := by
  simp only [Option.some.injEq, Match.mk.injEq] at h
  refine ⟨stamp_inj ht ht' h.1, ?_⟩
  cases node
  cases node'
  simpa using h.2.1

theorem readyName_inj (ht : t < limit) (ht' : t' < limit)
    (h : readyName t node = readyName t' node') : t = t' ∧ node = node' := by
  refine eq_of_match ht ht' (b := false) (e := false) ?_
  rw [← spoolName_readyName, ← spoolName_readyName, h]

theorem partName_eq (t : Nat) (node : NodeID) :
    partName t node = readyName t node ++ ".part".toList := by
  have hsuffix : activeSuffix = readySuffix ++ ".part".toList := by decide
  rw [partName, readyName, hsuffix, List.append_assoc, List.cons_append, List.append_assoc]

/-- Two names of one form are the same if those of the other form are. -/
theorem partName_eq_iff : partName t node = partName t' node' ↔
    readyName t node = readyName t' node' := by
  rw [partName_eq, partName_eq, List.append_left_inj]

theorem trimPart_partName (t : Nat) (node : NodeID) :
    trimPart (partName t node) = readyName t node := by
  rw [partName_eq, trimPart, if_pos (List.suffix_append ..)]
  refine List.take_left' ?_
  rw [List.length_append, show ".part".toList.length = 5 by decide, Nat.add_sub_cancel]

/-! ## Keys -/

/-- `time.Parse` with the layout: the date, if the calendar has it and the clock the time. -/
def parseStamp (ts : Text) : Option Civil :=
  let date : Civil :=
    ⟨ofDigits (ts.take 4), ofDigits ((ts.drop 4).take 2), ofDigits ((ts.drop 6).take 2)⟩
  if (1 ≤ date.month ∧ date.month ≤ 12 ∧ 1 ≤ date.day ∧ date.day ≤ daysIn date.year date.month) ∧
      ofDigits ((ts.drop 9).take 2) < 24 ∧ ofDigits ((ts.drop 11).take 2) < 60 ∧
      ofDigits ((ts.drop 13).take 2) < 60 then
    some date
  else none

/-- `spoolKey`. -/
def spoolKey (name : Text) : Option Text :=
  match spoolName name with
  | some ⟨ts, _, false⟩ =>
    match parseStamp ts with
    | some date =>
      some ("tunnel-logs/".toList ++ (digits 4 date.year ++ '/' :: (digits 2 date.month ++
        '/' :: (digits 2 date.day ++ '/' :: name))))
    | none => none
  | _ => none

theorem spoolKey_partName (t : Nat) (node : NodeID) : spoolKey (partName t node) = none := by
  rw [spoolKey, spoolName_partName]

/-- Different names have different keys. -/
theorem spoolKey_inj {a b k : Text} (ha : spoolKey a = some k) (hb : spoolKey b = some k) :
    a = b := by
  have hkey : ∀ {name : Text}, spoolKey name = some k → k.drop 23 = name := by
    intro name h
    unfold spoolKey at h
    split at h
    · split at h
      · obtain rfl := Option.some.inj h
        rw [show (23 : Nat) = 12 + (4 + (1 + (2 + (1 + (2 + 1))))) from rfl]
        simp only [← List.drop_drop]
        rw [List.drop_left' (by decide), List.drop_left' (length_digits ..)]
        rw [List.drop_succ_cons, List.drop_zero, List.drop_left' (length_digits ..)]
        rw [List.drop_succ_cons, List.drop_zero, List.drop_left' (length_digits ..)]
        rfl
      · simp at h
    · simp at h
  rw [← hkey ha, ← hkey hb]

/-- A stamp is parsed as the date it was written for. -/
theorem parseStamp_stamp (ht : t < limit) :
    parseStamp (stamp t) = some (civil (t / dayLength)) := by
  have hyear := civil_year (Nat.div_lt_of_lt_mul (by rwa [Nat.mul_comm]) : t / dayLength < maxDays)
  have hvalid := civil_valid (t / dayLength)
  have hsec : t % dayLength / second < 86400 :=
    Nat.div_lt_of_lt_mul (by rw [Nat.mul_comm]; exact Nat.mod_lt _ (by decide))
  have hday := daysIn_le (civil (t / dayLength)).year (civil (t / dayLength)).month
  obtain ⟨hm1, hm12, hd1, hdn⟩ := hvalid
  -- what is left after each group of digits
  have h4 : (stamp t).drop 4 = digits 2 (civil (t / dayLength)).month ++
      (digits 2 (civil (t / dayLength)).day ++
        'T' :: (timeDigits t ++ '.' :: (fracDigits t ++ ['Z']))) := by
    rw [stamp, dateDigits, List.append_assoc, List.append_assoc,
      List.drop_left' (length_digits ..)]
  have h6 : (stamp t).drop 6 = digits 2 (civil (t / dayLength)).day ++
      'T' :: (timeDigits t ++ '.' :: (fracDigits t ++ ['Z'])) := by
    rw [show 6 = 4 + 2 from rfl, ← List.drop_drop, h4, List.drop_left' (length_digits ..)]
  have h9 : (stamp t).drop 9 = timeDigits t ++ '.' :: (fracDigits t ++ ['Z']) := by
    rw [show 9 = 6 + (2 + 1) from rfl, ← List.drop_drop, ← List.drop_drop, h6,
      List.drop_left' (length_digits ..)]
    rfl
  have h11 : (stamp t).drop 11 = digits 2 (t % dayLength / second / 60 % 60) ++
      (digits 2 (t % dayLength / second % 60) ++ '.' :: (fracDigits t ++ ['Z'])) := by
    rw [show 11 = 9 + 2 from rfl, ← List.drop_drop, h9, timeDigits, List.append_assoc,
      List.append_assoc, List.drop_left' (length_digits ..)]
  have h13 : (stamp t).drop 13 = digits 2 (t % dayLength / second % 60) ++
      '.' :: (fracDigits t ++ ['Z']) := by
    rw [show 13 = 11 + 2 from rfl, ← List.drop_drop, h11, List.drop_left' (length_digits ..)]
  have hy : (stamp t).take 4 = digits 4 (civil (t / dayLength)).year := by
    rw [stamp, dateDigits, List.append_assoc, List.take_left' (length_digits ..)]
  have hh : ((stamp t).drop 9).take 2 = digits 2 (t % dayLength / second / 3600) := by
    rw [h9, timeDigits, List.append_assoc, List.take_left' (length_digits ..)]
  rw [parseStamp, hy, hh, h4, h6, h11, h13]
  simp only [List.take_left' (length_digits ..)]
  rw [ofDigits_digits (by omega), ofDigits_digits (by omega), ofDigits_digits (by omega),
    ofDigits_digits (by omega), ofDigits_digits (by omega), ofDigits_digits (by omega)]
  rw [if_pos ⟨⟨hm1, hm12, hd1, hdn⟩, by omega, by omega, by omega⟩]

theorem exists_spoolKey (ht : t < limit) (node : NodeID) :
    ∃ k, spoolKey (readyName t node) = some k := by
  rw [spoolKey, spoolName_readyName]
  simp only [parseStamp_stamp ht]
  exact ⟨_, rfl⟩

end Tunneld.Spool

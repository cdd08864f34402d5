import Mathlib.Data.List.Sort
import Tunneld.Lib.Lines
import Tunneld.Store.SpoolName

/-!
# The spool directory

What the connection log has on disk: files, the names they have in the directory and the bytes in
them.  A file is written through the handle that its creation returned, which stays with it
whatever its name becomes; everything else goes by name.  A file that has lost its name is kept in
the list, because a line in it has been written all the same.

`File.Sound` is what holds of every file at every moment: its bytes are the lines written to it and
at most the beginning of one more.  The lemmas below say which operations keep that, and which of
them leave nothing but whole lines.
-/

universe u

namespace Tunneld.Spool

abbrev Bytes := List UInt8

def newline : UInt8 := 10

/-- What `json.Marshal` makes of an event, if it can.  It escapes control characters, so there is
no newline in the result. -/
structure Codec (ε : Type u) where
  marshal : ε → Option Bytes
  no_newline : ∀ e b, marshal e = some b → newline ∉ b

variable {ε : Type u} {c : Codec ε}

/-- An event that has been encoded. -/
structure Entry (c : Codec ε) where
  event : ε
  body : Bytes
  ok : c.marshal event = some body
  deriving DecidableEq

def Codec.encode (c : Codec ε) (e : ε) : Option (Entry c) :=
  match h : c.marshal e with
  | some b => some ⟨e, b, h⟩
  | none => none

theorem event_of_encode {e : ε} {x : Entry c} (h : c.encode e = some x) : x.event = e := by
  unfold Codec.encode at h
  split at h
  · obtain rfl := Option.some.inj h
    rfl
  · simp at h

namespace Entry

variable (x : Entry c)

def line : Bytes := x.body ++ [newline]

theorem newline_not_mem : newline ∉ x.body := c.no_newline _ _ x.ok

/-- Less than the line is the beginning of its body. -/
theorem take_line {n : Nat} (h : n < x.line.length) : newline ∉ x.line.take n := by
  have hn : n ≤ x.body.length := by simp [line] at h; omega
  rw [line, List.take_append_of_le_length hn]
  exact fun hm => x.newline_not_mem (List.mem_of_mem_take hm)

end Entry

/-! ## A file -/

structure File (c : Codec ε) where
  /-- The instant and the node it was opened with. -/
  start : Nat
  node : NodeID
  /-- Its name in the directory, until it is removed. -/
  name : Option Text
  bytes : Bytes
  /-- The entries that were written completely.  No code reads this, nor what follows. -/
  written : List (Entry c)
  /-- Whether a failed write could not be undone. -/
  torn : Bool
  /-- Whether the writer itself marked it as ready. -/
  finished : Bool
  /-- The bytes of the last upload that succeeded. -/
  uploaded : Option Bytes

namespace File

/-- What `os.OpenFile` creates. -/
def fresh (c : Codec ε) (start : Nat) (node : NodeID) : File c :=
  ⟨start, node, some (partName start node), [], [], false, false, none⟩

/-- A write of which `n` bytes reach the file. -/
def append (x : Entry c) (n : Nat) (f : File c) : File c :=
  { f with
    bytes := f.bytes ++ x.line.take n
    written := if n < x.line.length then f.written else f.written ++ [x] }

/-- Truncation to `n` bytes. -/
def cut (n : Nat) (f : File c) : File c := { f with bytes := f.bytes.take n }

def tear (f : File c) : File c := { f with torn := true }

/-- An upload of the first `size` bytes. -/
def upload (size : Nat) (f : File c) : File c := { f with uploaded := some (f.bytes.take size) }

def unname (f : File c) : File c := { f with name := none }

def rename (new : Text) (writer : Bool) (f : File c) : File c :=
  { f with name := some new, finished := f.finished || writer }

/-- The lines in the file, complete with their newlines. -/
def complete (f : File c) : List Bytes := (Lines.split newline f.bytes).1

/-- What is behind the last newline. -/
def rest (f : File c) : Bytes := (Lines.split newline f.bytes).2

/-- The text of the entries written. -/
def text (f : File c) : Bytes := Lines.join newline (f.written.map Entry.body)

/-- There is nothing in the file but whole lines. -/
def Whole (f : File c) : Prop := f.bytes = f.text

/-- There are whole lines in the file and perhaps the beginning of another. -/
def Sound (f : File c) : Prop := ∃ rest, newline ∉ rest ∧ f.bytes = f.text ++ rest

variable {f : File c} {x : Entry c} {n : Nat}

theorem Whole.sound (h : f.Whole) : f.Sound := ⟨[], by simp, by rw [h, List.append_nil]⟩

theorem split_of_bytes {r : Bytes} (hr : newline ∉ r) (h : f.bytes = f.text ++ r) :
    Lines.split newline f.bytes = (f.written.map Entry.body, r) := by
  rw [h, text, Lines.split_join _ hr]
  intro l hl
  obtain ⟨x, -, rfl⟩ := List.mem_map.1 hl
  exact x.newline_not_mem

/-- The complete lines in a file are the entries that were written. -/
theorem Sound.complete_eq (h : f.Sound) : f.complete = f.written.map Entry.body := by
  obtain ⟨r, hr, hb⟩ := h
  rw [complete, split_of_bytes hr hb]

theorem Whole.rest_eq_nil (h : f.Whole) : f.rest = [] := by
  rw [rest, split_of_bytes (r := []) (by simp) (by rw [h, List.append_nil])]

theorem text_eq_nil : f.text = [] ↔ f.written = [] := by
  rw [text, Lines.join_eq_nil, List.map_eq_nil_iff]

/-- Up to the last newline there is exactly what was written. -/
theorem Sound.keep_eq (h : f.Sound) : Lines.keep newline f.bytes = f.text.length := by
  obtain ⟨r, hr, hb⟩ := h
  rw [hb, text, Lines.keep_join hr]

theorem Sound.text_length_le (h : f.Sound) : f.text.length ≤ f.bytes.length := by
  obtain ⟨r, -, hb⟩ := h
  rw [hb, List.length_append]
  exact Nat.le_add_right ..

theorem Sound.written_eq_nil (h : f.Sound) (hb : f.bytes = []) : f.written = [] := by
  have hle := h.text_length_le
  rw [hb] at hle
  exact text_eq_nil.1 (List.eq_nil_of_length_eq_zero (Nat.le_zero.1 hle))

/-- A cut behind the last complete line leaves whole lines only. -/
theorem Sound.whole_cut (h : f.Sound) (hn : f.text.length = n) : (f.cut n).Whole := by
  obtain ⟨r, -, hb⟩ := h
  show f.bytes.take n = f.text
  rw [hb, List.take_left' hn]

theorem text_append : (f.append x n).text =
    if n < x.line.length then f.text else f.text ++ x.line := by
  unfold append text
  split
  · rfl
  · simp only [List.map_append, List.map_cons, List.map_nil]
    rw [Lines.join_concat]
    rfl

/-- A whole line behind whole lines. -/
theorem Whole.append_line (h : f.Whole) : (f.append x x.line.length).Whole := by
  rw [Whole, text_append, if_neg (Nat.lt_irrefl _)]
  show f.bytes ++ x.line.take x.line.length = _
  rw [List.take_length, h]

/-- Whatever part of a line reaches a file of whole lines. -/
theorem Whole.append_sound (h : f.Whole) : (f.append x n).Sound := by
  have hbytes : (f.append x n).bytes = f.text ++ x.line.take n := by
    rw [← h]
    rfl
  by_cases hn : n < x.line.length
  · exact ⟨x.line.take n, x.take_line hn, by rw [hbytes, text_append, if_pos hn]⟩
  · refine ⟨[], by simp, ?_⟩
    rw [hbytes, text_append, if_neg hn, List.append_nil, List.take_of_length_le (by omega)]

end File

/-! ## The directory -/

/-- The files, in the order in which they were opened. -/
abbrev Disk (c : Codec ε) := List (File c)

namespace Disk

variable (d : Disk c)

def names : List Text := d.filterMap File.name

/-- Whether a name comes before or is another in the order of `sort.Strings`. -/
def before (a b : Text) : Prop := List.lex b a (fun x y => decide (x.toNat < y.toNat)) = false

instance (a b : Text) : Decidable (before a b) := instDecidableEqBool _ _

instance : DecidableRel before := fun _ _ => instDecidableEqBool _ _

/-- `os.ReadDir`. -/
def listing : List Text := d.names.insertionSort before

/-- Whether the name is that of a file that can be uploaded. -/
def isReady (name : Text) : Bool := (spoolName name).any fun m => !m.part

/-- `readyFiles`. -/
def readyFiles : List Text := d.listing.filter isReady

/-- The place of the file of a name. -/
def resolve (name : Text) : Option Nat := d.findIdx? fun f => decide (f.name = some name)

/-- The file of a name and its place. -/
def lookup (name : Text) : Option (Nat × File c) :=
  (d.resolve name).bind fun i => d[i]?.map fun f => (i, f)

/-- An operation on the file of a name. -/
def onName (name : Text) (g : File c → File c) : Disk c :=
  match d.resolve name with
  | some i => d.modify i g
  | none => d

/-- `os.Remove`. -/
def remove (name : Text) : Disk c := d.onName name File.unname

/-- `os.Truncate`. -/
def truncate (name : Text) (n : Nat) : Disk c := d.onName name (File.cut n)

/-- `os.Rename`, by the writer or in recovery: a file that has the new name is replaced. -/
def rename (old new : Text) (writer : Bool) : Disk c :=
  if old = new then d else (d.onName new File.unname).onName old (File.rename new writer)

variable {d} {name : Text} {i : Nat} {f f' : File c} {g : File c → File c}

theorem mem_listing : name ∈ d.listing ↔ ∃ f ∈ d, f.name = some name := by
  rw [listing, List.mem_insertionSort, names, List.mem_filterMap]

theorem get_of_resolve (h : d.resolve name = some i) :
    ∃ f, d[i]? = some f ∧ f.name = some name := by
  obtain ⟨hlt, hname, -⟩ := List.findIdx?_eq_some_iff_getElem.1 h
  exact ⟨d[i], List.getElem?_eq_getElem hlt, by simpa using hname⟩

theorem resolve_of_lookup (h : d.lookup name = some (i, f)) :
    d.resolve name = some i ∧ d[i]? = some f ∧ f.name = some name := by
  obtain ⟨j, hj, h⟩ := Option.bind_eq_some_iff.1 h
  obtain ⟨f', hf', h⟩ := Option.map_eq_some_iff.1 h
  obtain ⟨rfl, rfl⟩ := Prod.mk.inj h
  obtain ⟨f, hf, hname⟩ := get_of_resolve hj
  obtain rfl : f = f' := Option.some.inj (hf.symm.trans hf')
  exact ⟨hj, hf, hname⟩

theorem onName_of_resolve (h : d.resolve name = some i) : d.onName name g = d.modify i g := by
  rw [onName, h]

/-- An operation by name is one on a file that has the name, or nothing. -/
theorem onName_cases (d : Disk c) (name : Text) (g : File c → File c) :
    d.onName name g = d ∨
      ∃ i f, d[i]? = some f ∧ f.name = some name ∧ d.onName name g = d.modify i g := by
  cases h : d.resolve name with
  | none => exact .inl (by rw [onName, h])
  | some i =>
    obtain ⟨f, hf, hname⟩ := get_of_resolve h
    exact .inr ⟨i, f, hf, hname, onName_of_resolve h⟩

theorem get_of_mem_modify (h : f' ∈ d.modify i g) :
    (∃ j, i ≠ j ∧ d[j]? = some f') ∨ ∃ f, d[i]? = some f ∧ f' = g f := by
  obtain ⟨j, hj⟩ := List.mem_iff_getElem?.1 h
  rw [List.getElem?_modify] at hj
  obtain ⟨f, hf, rfl⟩ := Option.map_eq_some_iff.1 hj
  split
  · rename_i hij
    exact .inr ⟨f, hij ▸ hf, rfl⟩
  · exact .inl ⟨j, by assumption, hf⟩

/-- What holds of all files holds after an operation on one, if it does of that one. -/
theorem forall_modify {P : File c → Prop} (h : ∀ f ∈ d, P f) (hf : d[i]? = some f)
    (hg : P (g f)) : ∀ f ∈ d.modify i g, P f := by
  intro f' hf'
  rcases get_of_mem_modify hf' with ⟨j, -, hj⟩ | ⟨a, ha, rfl⟩
  · exact h f' (List.mem_of_getElem? hj)
  · rw [hf] at ha
    obtain rfl := Option.some.inj ha
    exact hg

theorem get_modify_self (h : d[i]? = some f) : (d.modify i g)[i]? = some (g f) := by
  simp [h]

theorem get_modify_of_ne {j : Nat} (h : i ≠ j) : (d.modify i g)[j]? = d[j]? := by
  rw [List.getElem?_modify]
  simp [h]

/-! ### What an operation leaves alone

An operation on one file that keeps some reading of it keeps that reading of the whole disk. -/

variable {β : Type*} {r : File c → β}

theorem map_modify (hr : ∀ f, r (g f) = r f) : (d.modify i g).map r = d.map r := by
  refine List.ext_getElem? fun j => ?_
  rw [List.getElem?_map, List.getElem?_map, List.getElem?_modify]
  cases d[j]? with
  | none => rfl
  | some f =>
    by_cases hij : i = j
    · simp [hij, hr]
    · simp [hij]

theorem map_onName (hr : ∀ f, r (g f) = r f) : (d.onName name g).map r = d.map r := by
  rcases onName_cases d name g with h | ⟨i, f, -, -, h⟩
  · rw [h]
  · rw [h, map_modify hr]

theorem map_rename (hr : ∀ f n b, r { f with name := n, finished := b } = r f) {old new : Text}
    {writer : Bool} : (d.rename old new writer).map r = d.map r := by
  unfold rename
  split
  · rfl
  · rw [map_onName (g := File.rename new writer) fun f => hr f (some new) _]
    exact map_onName fun f => hr f none f.finished

end Disk
end Tunneld.Spool

import Tunneld.Lib.Lts
import Tunneld.Store.Disk

/-!
# The connection log spool

One goroutine, the writer, takes events from a queue and appends them to the active file; another,
the uploader, sends the files that are ready to the object store and removes them.  A file becomes
ready when the writer renames it, or when a later process finds it in the directory and recovers
it.  Everything they do to the disk is a step here, and every operation on the disk can fail.

A process can be gone after any step, and in the middle of a write with any part of the line in the
file.  What it had in memory (`Proc`) is lost and the directory stays, so a run of this system is a
series of processes on one directory.  The lock of the directory keeps them apart.

The signals between the goroutines only say when the uploader makes its next pass; here it makes
one whenever it likes.

What these runs keep is in `Tunneld.Store.Directory`, `Tunneld.Store.Conservation` and
`Tunneld.Store.Recovery`; they start from the cases of a step (`steps_of_step`).
-/

universe u

namespace Tunneld.Spool

variable {ε : Type u} {c : Codec ε}

/-- `spoolQueue`. -/
def queueSize : Nat := 5000

/-- `spoolWindow`, five minutes. -/
def window : Nat := 300 * Timestamp.second

/-- `spoolMaxNameTries`. -/
def maxNameTries : Nat := 1000

/-- What `withSpoolLimits` accepts. -/
structure Limits where
  maxFile : Nat
  maxBytes : Nat
  maxFile_pos : 0 < maxFile
  maxBytes_pos : 0 < maxBytes

/-- An `activeFile`, with the file's place on the disk for the handle. -/
structure Active where
  id : Nat
  path : Text
  size : Nat
  winStart : Nat
  deriving DecidableEq

/-- `inWindow`. -/
def Active.InWindow (w : Active) (now : Nat) : Prop :=
  w.winStart ≤ now ∧ now < w.winStart + window

instance (w : Active) (now : Nat) : Decidable (w.InWindow now) :=
  inferInstanceAs (Decidable (_ ∧ _))

/-- What the writer does after `rotate`: wait for the next event, return, or go on in `append`. -/
inductive Next (c : Codec ε)
  | done
  | stop
  | cap (x : Entry c) (now : Nat)
  deriving DecidableEq

/-- Where the writer stands. -/
inductive Pc (c : Codec ε)
  | select
  /-- An event was received. -/
  | got (e : ε)
  /-- In `append`, before the clock is read. -/
  | encoded (x : Entry c)
  /-- Before the size of the spool is compared with its limit. -/
  | cap (x : Entry c) (now : Nat)
  /-- In `open`, before a name is tried, with so many tries left. -/
  | lstat (x : Entry c) (now start left : Nat)
  /-- There is no ready file of that name. -/
  | create (x : Entry c) (now start left : Nat)
  | write (x : Entry c)
  /-- A write failed with so many bytes in the file. -/
  | undo (n : Nat)
  | rotate (next : Next c)
  | stopped
  deriving DecidableEq

def Next.pc : Next c → Pc c
  | .done => .select
  | .stop => .stopped
  | .cap x now => .cap x now

/-- Where the uploader stands, with the names left in its pass. -/
inductive Up
  | idle
  | pass (todo : List Text)
  | sending (name : Text) (id size : Nat) (todo : List Text)
  | removing (name : Text) (size : Nat) (todo : List Text)
  /-- The file is removed and the spool's size not yet less. -/
  | removed (size : Nat) (todo : List Text)
  deriving DecidableEq

/-- The memory of a process. -/
structure Proc (c : Codec ε) where
  node : NodeID
  /-- `s.lastStart`; the zero time is `0`. -/
  lastStart : Nat
  spooled : Int
  queue : List ε
  closed : Bool
  abandon : Bool
  /-- The writer's `w`. -/
  active : Option Active
  pc : Pc c
  up : Up
  /-- What `onDrop` was told. -/
  drops : Nat
  /-- How many files there were when the process started.  No code reads this. -/
  base : Nat
  /-- The events of the calls to `PutConnLog` so far.  No code reads this. -/
  puts : List ε
  /-- The events that were counted as dropped.  No code reads this. -/
  dropped : List ε

namespace Proc

def init (c : Codec ε) (node : NodeID) (base : Nat) : Proc c :=
  ⟨node, 0, 0, [], false, false, none, .select, .idle, 0, base, [], []⟩

variable (p : Proc c)

/-- `onDrop(1)`. -/
def drop (e : ε) : Proc c := { p with drops := p.drops + 1, dropped := p.dropped ++ [e] }

/-- The event in hand is dropped and the writer goes back to `select`. -/
def lose (e : ε) : Proc c := { p.drop e with pc := .select }

/-- `PutConnLog`. -/
def put (e : ε) : Proc c :=
  if p.closed = false ∧ p.queue.length < queueSize then
    { p with queue := p.queue ++ [e], puts := p.puts ++ [e] }
  else { p.drop e with puts := p.puts ++ [e] }

/-- There is an active file, and its window is not now. -/
def Outdated (now : Nat) : Prop := ∃ w ∈ p.active, ¬ w.InWindow now

instance (now : Nat) : Decidable (p.Outdated now) := inferInstanceAs (Decidable (∃ w ∈ _, _))

/-- The first instant that `open` tries. -/
def firstStart (now : Nat) : Nat := if p.lastStart < now then now else p.lastStart + 1

/-- `*w = activeFile{…}` for the file that was just created. -/
def opened (now start id : Nat) : Proc c :=
  { p with
    active := some ⟨id, partName start p.node, 0, now - now % window⟩
    lastStart := start }

/-- So many more bytes are in the active file. -/
def grow (w : Active) (n : Nat) : Proc c :=
  { p with active := some { w with size := w.size + n }, spooled := p.spooled + n }

end Proc

/-! ## The writer -/

/-- A step of the writer, with what the clock says and how the system calls go. -/
inductive WriterAct
  | take
  | tick (now : Nat)
  | check
  | clock (now : Nat)
  | cap
  | lstat (ok : Bool)
  | create (ok : Bool)
  /-- A write that fails has written so many bytes. -/
  | write (failed : Option Nat)
  | undo (ok : Bool)
  /-- Whether the file could be synced, closed, and renamed or removed. -/
  | rotate (sync close ok : Bool)
  deriving DecidableEq

/-- `writer` with `append`, `open` and `rotate`. -/
def writerStep (lim : Limits) (p : Proc c) (d : Disk c) (a : WriterAct) :
    Option (Proc c × Disk c) :=
  match p.pc, a with
  | .select, .take =>
    match p.queue with
    | e :: q => some ({ p with queue := q, pc := .got e }, d)
    | [] => if p.closed = true then some ({ p with pc := .rotate .stop }, d) else none
  | .select, .tick now =>
    if p.Outdated now then some ({ p with pc := .rotate .done }, d) else some (p, d)
  | .got e, .check =>
    if p.abandon = true then some (p.lose e, d)
    else match c.encode e with
      | none => some (p.lose e, d)
      | some x => some ({ p with pc := .encoded x }, d)
  | .encoded x, .clock now =>
    if p.Outdated now then some ({ p with pc := .rotate (.cap x now) }, d)
    else some ({ p with pc := .cap x now }, d)
  | .cap x now, .cap =>
    if (lim.maxBytes : Int) < p.spooled + (x.line.length : Int) then some (p.lose x.event, d)
    else match p.active with
      | some _ => some ({ p with pc := .write x }, d)
      | none => some ({ p with pc := .lstat x now (p.firstStart now) maxNameTries }, d)
  | .lstat x _ _ 0, .lstat _ => some (p.lose x.event, d)
  | .lstat x now start (left + 1), .lstat ok =>
    if ok = false then some (p.lose x.event, d)
    else if (d.resolve (readyName start p.node)).isSome = true then
      some ({ p with pc := .lstat x now (start + 1) left }, d)
    else some ({ p with pc := .create x now start left }, d)
  | .create x now start left, .create ok =>
    if ok = false then some (p.lose x.event, d)
    else if (d.resolve (partName start p.node)).isSome = true then
      some ({ p with pc := .lstat x now (start + 1) left }, d)
    else some ({ p.opened now start d.length with pc := .write x }, d ++ [.fresh c start p.node])
  | .write x, .write failed =>
    match p.active, failed with
    | none, _ => none
    | some w, none =>
      some ({ p.grow w x.line.length with
          pc := if lim.maxFile ≤ w.size + x.line.length then .rotate .done else .select },
        d.modify w.id (File.append x x.line.length))
    | some w, some n =>
      if n < x.line.length then
        some ({ p.drop x.event with pc := .undo n }, d.modify w.id (File.append x n))
      else none
  | .undo n, .undo ok =>
    match p.active with
    | none => none
    | some w =>
      if ok = true then some ({ p with pc := .select }, d.modify w.id (File.cut w.size))
      else some ({ p.grow w n with pc := .rotate .done }, d.modify w.id File.tear)
  | .rotate next, .rotate _ _ ok =>
    match p.active with
    | none => some ({ p with pc := next.pc }, d)
    | some w =>
      -- the file is let go whatever fails
      some ({ p with active := none, pc := next.pc },
        if ok = false then d
        else if w.size = 0 then d.remove w.path
        else d.rename w.path (trimPart w.path) true)
  | _, _ => none

/-! ### What a step of the writer can do -/

/-- The events that the writer has in hand. -/
def Next.hand : Next c → List ε
  | .cap x _ => [x.event]
  | _ => []

@[inherit_doc Next.hand]
def Pc.hand : Pc c → List ε
  | .got e => [e]
  | .encoded x | .cap x _ | .lstat x _ _ _ | .create x _ _ _ | .write x => [x.event]
  | .rotate next => next.hand
  | _ => []

/-- Neither undoing a write nor rotating. -/
def Pc.Plain : Pc c → Prop
  | .undo _ | .rotate _ => False
  | _ => True

/-- The instant that is tried for the name of a new file. -/
def Pc.instant : Pc c → Option Nat
  | .lstat _ _ start _ | .create _ _ start _ => some start
  | _ => none

/-- The instant whose ready name is known to be free. -/
def Pc.creating : Pc c → Option Nat
  | .create _ _ start _ => some start
  | _ => none

/-- Writing to the active file. -/
def Pc.Writing : Pc c → Prop
  | .write _ | .undo _ => True
  | _ => False

/-- Going to return, or gone. -/
def Pc.Stopping : Pc c → Prop
  | .rotate .stop | .stopped => True
  | _ => False

theorem Next.instant_pc (next : Next c) : next.pc.instant = none := by cases next <;> rfl

theorem Next.creating_pc (next : Next c) : next.pc.creating = none := by cases next <;> rfl

theorem Next.not_writing (next : Next c) : ¬ next.pc.Writing := by cases next <;> exact id

theorem Next.hand_pc (next : Next c) : next.pc.hand = next.hand := by cases next <;> rfl

theorem Next.stopping_pc (next : Next c) : next.pc.Stopping ↔ (Pc.rotate next).Stopping := by
  cases next <;> rfl

theorem lt_firstStart (p : Proc c) (now : Nat) : p.lastStart < p.firstStart now := by
  unfold Proc.firstStart
  split <;> omega

/-- The steps of the writer that touch no file and are not done with an event, with the queue and
the place after them. -/
inductive Moves (p : Proc c) (d : Disk c) : WriterAct → List ε → Pc c → Prop
  | take {e q} (pc : p.pc = .select) (queue : p.queue = e :: q) :
      Moves p d .take q (.got e)
  | close (pc : p.pc = .select) (queue : p.queue = []) (closed : p.closed = true) :
      Moves p d .take p.queue (.rotate .stop)
  | expire {now} (pc : p.pc = .select) : Moves p d (.tick now) p.queue (.rotate .done)
  | tick {now} (pc : p.pc = .select) : Moves p d (.tick now) p.queue p.pc
  | encode {e x} (pc : p.pc = .got e) (encode : c.encode e = some x) :
      Moves p d .check p.queue (.encoded x)
  | outdated {x now} (pc : p.pc = .encoded x) :
      Moves p d (.clock now) p.queue (.rotate (.cap x now))
  | clock {x now} (pc : p.pc = .encoded x) :
      Moves p d (.clock now) p.queue (.cap x now)
  | reuse {x now w} (pc : p.pc = .cap x now)
      (active : p.active = some w) : Moves p d .cap p.queue (.write x)
  | open {x now} (pc : p.pc = .cap x now) (active : p.active = none) :
      Moves p d .cap p.queue (.lstat x now (p.firstStart now) maxNameTries)
  /-- There is a ready file of the name. -/
  | skipReady {x now start left ok}
      (pc : p.pc = .lstat x now start (left + 1)) :
      Moves p d (.lstat ok) p.queue (.lstat x now (start + 1) left)
  | lstat {x now start left ok}
      (pc : p.pc = .lstat x now start (left + 1))
      (free : d.resolve (readyName start p.node) = none) :
      Moves p d (.lstat ok) p.queue (.create x now start left)
  /-- There is a file of the name that was not finished. -/
  | skipPart {x now start left ok}
      (pc : p.pc = .create x now start left) :
      Moves p d (.create ok) p.queue (.lstat x now (start + 1) left)

namespace Moves

variable {p : Proc c} {d : Disk c} {a : WriterAct} {q : List ε} {pc : Pc c}

theorem plain (h : Moves p d a q pc) : p.pc.Plain := by
  cases h <;> simp [*, Pc.Plain]

theorem ne_undo (h : Moves p d a q pc) (n : Nat) : pc ≠ .undo n := by
  cases h <;> simp [*]

theorem hand (h : Moves p d a q pc) : pc.hand ++ q = p.pc.hand ++ p.queue := by
  cases h with
  | take hpc hq => rw [hpc, hq]; rfl
  | encode hpc hx => rw [hpc, ← event_of_encode hx]; rfl
  | tick => rfl
  | _ hpc => rw [hpc]; rfl

/-- A name is tried only if there is no file, and each is later than the one before. -/
theorem opening (h : Moves p d a q pc) : ∀ start ∈ pc.instant,
    p.lastStart < start ∧ p.active = none ∨ ∃ start' ∈ p.pc.instant, start' ≤ start := by
  cases h with
  | «open» hpc hact =>
    rintro start ⟨⟩
    exact .inl ⟨lt_firstStart p _, hact⟩
  | skipReady hpc | lstat hpc | skipPart hpc =>
    rintro start' ⟨⟩
    exact .inr ⟨_, by rw [hpc]; rfl, by omega⟩
  | tick hpc => simp [hpc, Pc.instant]
  | _ => simp [Pc.instant]

/-- Nothing has the name that the new file will have when it is ready. -/
theorem ready (h : Moves p d a q pc) :
    ∀ start ∈ pc.creating, d.resolve (readyName start p.node) = none := by
  cases h with
  | lstat hpc free =>
    rintro start' ⟨⟩
    exact free
  | tick hpc => simp [hpc, Pc.creating]
  | _ => simp [Pc.creating]

theorem writing (h : Moves p d a q pc) (hw : pc.Writing) : p.active ≠ none := by
  cases h with
  | reuse hpc hact => simp [hact]
  | tick hpc => rw [hpc] at hw; exact hw.elim
  | _ => exact hw.elim

theorem stopping (h : Moves p d a q pc) (hs : pc.Stopping) : p.closed = true ∧ q = [] := by
  cases h with
  | close hpc hq hclosed => exact ⟨hclosed, hq⟩
  | tick hpc => rw [hpc] at hs; exact hs.elim
  | _ => exact hs.elim

end Moves

/-- The steps of the writer, by what they do to the files and the events. -/
inductive Writes (lim : Limits) (p : Proc c) (d : Disk c) : WriterAct → Proc c → Disk c → Prop
  | move {a q pc} (moves : Moves p d a q pc) :
      Writes lim p d a { p with queue := q, pc := pc } d
  /-- The event in hand is dropped, before anything is written. -/
  | lose {a e} (plain : p.pc.Plain) (hand : p.pc.hand = [e]) :
      Writes lim p d a (p.lose e) d
  | create {x now start left ok}
      (pc : p.pc = .create x now start left)
      (free : d.resolve (partName start p.node) = none) :
      Writes lim p d (.create ok) { p.opened now start d.length with pc := .write x }
        (d ++ [.fresh c start p.node])
  | write {x w} (pc : p.pc = .write x) (active : p.active = some w) :
      Writes lim p d (.write none)
        { p.grow w x.line.length with
          pc := if lim.maxFile ≤ w.size + x.line.length then .rotate .done else .select }
        (d.modify w.id (File.append x x.line.length))
  | fail {x w n} (pc : p.pc = .write x) (active : p.active = some w)
      (short : n < x.line.length) :
      Writes lim p d (.write (some n)) { p.drop x.event with pc := .undo n }
        (d.modify w.id (File.append x n))
  | undo {n w ok} (pc : p.pc = .undo n) (active : p.active = some w) :
      Writes lim p d (.undo ok) { p with pc := .select } (d.modify w.id (File.cut w.size))
  | tear {n w ok} (pc : p.pc = .undo n) (active : p.active = some w) :
      Writes lim p d (.undo ok) { p.grow w n with pc := .rotate .done } (d.modify w.id File.tear)
  /-- The active file, if any, is let go as it is. -/
  | leave {next sync close ok} (pc : p.pc = .rotate next) :
      Writes lim p d (.rotate sync close ok) { p with active := none, pc := next.pc } d
  | remove {next w sync close ok} (pc : p.pc = .rotate next)
      (active : p.active = some w) (empty : w.size = 0) :
      Writes lim p d (.rotate sync close ok) { p with active := none, pc := next.pc }
        (d.remove w.path)
  | finish {next w sync close ok} (pc : p.pc = .rotate next)
      (active : p.active = some w) :
      Writes lim p d (.rotate sync close ok) { p with active := none, pc := next.pc }
        (d.rename w.path (trimPart w.path) true)

variable {p : Proc c} {d : Disk c}

theorem writes_of_step {lim : Limits} {a : WriterAct} {r : Proc c × Disk c}
    (hs : writerStep lim p d a = some r) : Writes lim p d a r.1 r.2 := by
  revert hs
  fun_cases writerStep lim p d a <;> rintro ⟨⟩
  all_goals try first
    | exact .move (.take ‹_› ‹_›)
    | exact .move (.close ‹_› ‹_› ‹_›)
    | exact .move (.expire ‹_›)
    | exact .move (.tick ‹_›)
    | exact .move (.encode ‹_› ‹_›)
    | exact .move (.outdated ‹_›)
    | exact .move (.clock ‹_›)
    | exact .move (.reuse ‹_› ‹_›)
    | exact .move (.open ‹_› ‹_›)
    | exact .move (.skipReady ‹_›)
    | exact .move (.lstat ‹_› (Option.not_isSome_iff_eq_none.1 ‹_›))
    | exact .move (.skipPart ‹_›)
    | exact .create ‹_› (Option.not_isSome_iff_eq_none.1 ‹_›)
    | exact .write ‹_› ‹_›
    | exact .fail ‹_› ‹_› ‹_›
    | exact .undo ‹_› ‹_›
    | exact .tear ‹_› ‹_›
    | exact .lose (by simp [*, Pc.Plain]) (by simp [*, Pc.hand])
  -- a rotation, without a file and with one
  · rename_i hpc hact
    rw [hact]
    exact .leave hpc
  · rename_i hpc w hact
    dsimp only
    split
    · exact .leave hpc
    · split
      · exact .remove hpc hact ‹_›
      · exact .finish hpc hact

/-! ## The uploader -/

inductive UploaderAct
  | list
  /-- The pass is over, or given up. -/
  | leave
  /-- Whether the file could be opened and its size read. -/
  | open (ok : Bool)
  | send (ok : Bool)
  | remove (ok : Bool)
  | count
  deriving DecidableEq

/-- `pass` and `uploadFile`. -/
def uploaderStep (p : Proc c) (d : Disk c) (a : UploaderAct) : Option (Proc c × Disk c) :=
  match p.up, a with
  | .idle, .list => some ({ p with up := .pass d.readyFiles }, d)
  | .pass _, .leave => some ({ p with up := .idle }, d)
  | .pass (name :: todo), .open ok =>
    match spoolKey name, (if ok = true then d.lookup name else none) with
    | some _, some (id, f) => some ({ p with up := .sending name id f.bytes.length todo }, d)
    | _, _ => some ({ p with up := .pass todo }, d)
  | .sending name id size todo, .send ok =>
    if ok = true then
      some ({ p with up := .removing name size todo }, d.modify id (File.upload size))
    else some ({ p with up := .idle }, d)
  | .removing name size todo, .remove ok =>
    if ok = true then some ({ p with up := .removed size todo }, d.remove name)
    else some ({ p with up := .pass todo }, d)
  | .removed size todo, .count =>
    some ({ p with spooled := p.spooled - size, up := .pass todo }, d)
  | _, _ => none

/-- Not between an upload and the removal of the file. -/
def Up.Quiet : Up → Prop
  | .sending .. | .removing .. => False
  | _ => True

/-- The steps of the uploader, by what they do to the files. -/
inductive Uploads (p : Proc c) (d : Disk c) : Proc c → Disk c → Prop
  | turn {up n} (quiet : up.Quiet) : Uploads p d { p with spooled := n, up := up } d
  | open {name key id f todo}
      (key : spoolKey name = some key) (lookup : d.lookup name = some (id, f)) :
      Uploads p d { p with up := .sending name id f.bytes.length todo } d
  | send {name id size todo} (up : p.up = .sending name id size todo) :
      Uploads p d { p with up := .removing name size todo } (d.modify id (File.upload size))
  | remove {name size todo} (up : p.up = .removing name size todo) :
      Uploads p d { p with up := .removed size todo } (d.remove name)

theorem uploads_of_step {a : UploaderAct} {r : Proc c × Disk c} (hs : uploaderStep p d a = some r) :
    Uploads p d r.1 r.2 := by
  revert hs
  fun_cases uploaderStep p d a <;> rintro ⟨⟩
  all_goals first
    | exact .send ‹_›
    | exact .remove ‹_›
    | exact .open ‹_› (Option.ite_none_right_eq_some.1 ‹_›).2
    | exact .turn trivial

/-! ## Recovery -/

/-- Where a process stands with the directory. -/
inductive Phase
  /-- There is no process. -/
  | down
  /-- In `recoverSpool`, with these names left, and whether all has gone well so far. -/
  | recovering (todo : List Text) (clean : Bool)
  /-- In `recoverPart`, with the file cut to its complete lines. -/
  | renaming (name : Text) (keep : Nat) (todo : List Text) (clean : Bool)
  | running
  deriving DecidableEq

inductive RecoverAct
  /-- The next name.  Whether the file could be read, and removed or truncated. -/
  | entry (ok : Bool)
  | rename (ok : Bool)
  /-- The goroutines are started. -/
  | serve
  deriving DecidableEq

/-- `recoverSpool` and `recoverPart`. -/
def recoverStep (ph : Phase) (p : Proc c) (d : Disk c) (a : RecoverAct) :
    Option (Phase × Proc c × Disk c) :=
  match ph, a with
  | .recovering (name :: todo) clean, .entry ok =>
    match spoolName name, (if ok = true then d.lookup name else none) with
    | none, _ => some (.recovering todo clean, p, d)
    | some _, none => some (.recovering todo false, p, d)
    | some m, some (_, f) =>
      if m.part = false then
        some (.recovering todo clean, { p with spooled := p.spooled + f.bytes.length }, d)
      else if Lines.keep newline f.bytes = 0 then
        some (.recovering todo clean, p, d.remove name)
      else
        some (.renaming name (Lines.keep newline f.bytes) todo clean, p,
          d.truncate name (Lines.keep newline f.bytes))
  | .renaming name keep todo clean, .rename ok =>
    if ok = true then
      some (.recovering todo clean, { p with spooled := p.spooled + keep },
        d.rename name (trimPart name) false)
    else some (.recovering todo false, p, d)
  | .recovering [] _, .serve => some (.running, p, d)
  | _, _ => none

/-- Whether the name is that of a file that has to be recovered. -/
def isPart (name : Text) : Prop := ∃ m ∈ spoolName name, m.part = true

theorem isPart_of_match {name : Text} {m : Match} (hm : spoolName name = some m)
    (hpart : ¬ m.part = false) : isPart name :=
  ⟨m, hm, by simpa using hpart⟩

theorem isPart_partName (t : Nat) (node : NodeID) : isPart (partName t node) :=
  ⟨_, spoolName_partName t node, rfl⟩

theorem not_isPart_readyName (t : Nat) (node : NodeID) : ¬ isPart (readyName t node) := by
  simp [isPart, spoolName_readyName]

/-- The steps of recovery, by what they do to the files. -/
inductive Recovers (p : Proc c) (d : Disk c) : Phase → Phase → Proc c → Disk c → Prop
  /-- A file stays as it is: one that is ready, or anything that could not be dealt with. -/
  | skip {name todo clean clean' n}
      (done : clean' = true → clean = true ∧ ¬ isPart name) :
      Recovers p d (.recovering (name :: todo) clean) (.recovering todo clean')
        { p with spooled := n } d
  | remove {name todo clean i f}
      (part : isPart name) (lookup : d.lookup name = some (i, f))
      (none_complete : Lines.keep newline f.bytes = 0) :
      Recovers p d (.recovering (name :: todo) clean) (.recovering todo clean) p (d.remove name)
  | cut {name todo clean i f}
      (part : isPart name) (lookup : d.lookup name = some (i, f))
      (some_complete : Lines.keep newline f.bytes ≠ 0) :
      Recovers p d (.recovering (name :: todo) clean)
        (.renaming name (Lines.keep newline f.bytes) todo clean) p
        (d.truncate name (Lines.keep newline f.bytes))
  | rename {name keep todo clean n} :
      Recovers p d (.renaming name keep todo clean) (.recovering todo clean)
        { p with spooled := n } (d.rename name (trimPart name) false)
  | fail {name keep todo clean} :
      Recovers p d (.renaming name keep todo clean) (.recovering todo false) p d
  | serve {clean} : Recovers p d (.recovering [] clean) .running p d

theorem recovers_of_step {ph : Phase} {a : RecoverAct} {r : Phase × Proc c × Disk c}
    (hs : recoverStep ph p d a = some r) : Recovers p d ph r.1 r.2.1 r.2.2 := by
  revert hs
  fun_cases recoverStep ph p d a <;> rintro ⟨⟩
  all_goals first
    | exact .remove (isPart_of_match ‹_› ‹_›) (Option.ite_none_right_eq_some.1 ‹_›).2 ‹_›
    | exact .cut (isPart_of_match ‹_› ‹_›) (Option.ite_none_right_eq_some.1 ‹_›).2 ‹_›
    | exact .rename
    | exact .fail
    | exact .serve
    | exact .skip fun h => ⟨h, by simp [isPart, *]⟩
    | exact .skip fun h => absurd h (by simp)

/-! ## The system -/

structure State (c : Codec ε) where
  phase : Phase
  proc : Proc c
  disk : Disk c
  /-- The nodes of the processes so far.  No code reads this. -/
  used : List NodeID

inductive Act (ε : Type u)
  | start (node : NodeID)
  /-- The process is gone; if it was writing, so many bytes have reached the file. -/
  | crash (n : Nat)
  | put (e : ε)
  /-- `Drain` closes the queue. -/
  | drain
  /-- The time for `Drain` runs out. -/
  | expire
  | recover (a : RecoverAct)
  | writer (a : WriterAct)
  | uploader (a : UploaderAct)

/-- What a process leaves on the disk when it is gone. -/
def leftover (p : Proc c) (d : Disk c) (n : Nat) : Disk c :=
  match p.pc, p.active with
  | .write x, some w => d.modify w.id (File.append x n)
  | _, _ => d

theorem map_leftover {β : Type*} {r : File c → β} {n : Nat}
    (hr : ∀ x f, r (File.append x n f) = r f) : (leftover p d n).map r = d.map r := by
  unfold leftover
  split
  · exact Disk.map_modify (hr _)
  · rfl

theorem length_leftover (p : Proc c) (d : Disk c) (n : Nat) :
    (leftover p d n).length = d.length := by
  unfold leftover
  split
  · exact List.length_modify ..
  · rfl

namespace State

variable (s : State c)

/-- A step of the process in `running`. -/
def run (r : Option (Proc c × Disk c)) : Option (State c) :=
  if s.phase = .running then r.map fun x => { s with proc := x.1, disk := x.2 } else none

end State

def step (lim : Limits) (s : State c) : Act ε → Option (State c)
  | .start node =>
    if s.phase = .down then
      some ⟨.recovering s.disk.listing true, .init c node s.disk.length, s.disk, node :: s.used⟩
    else none
  | .crash n =>
    if s.phase ≠ .down then
      some { s with
        phase := .down
        proc := { Proc.init c s.proc.node s.disk.length with lastStart := s.proc.lastStart }
        disk := leftover s.proc s.disk n }
    else none
  | .put e => s.run (some (s.proc.put e, s.disk))
  | .drain =>
    s.run (if s.proc.closed = false then some ({ s.proc with closed := true }, s.disk) else none)
  | .expire =>
    s.run (if s.proc.closed = true then some ({ s.proc with abandon := true }, s.disk) else none)
  | .recover a =>
    (recoverStep s.phase s.proc s.disk a).map fun x =>
      { s with phase := x.1, proc := x.2.1, disk := x.2.2 }
  | .writer a => s.run (writerStep lim s.proc s.disk a)
  | .uploader a => s.run (uploaderStep s.proc s.disk a)

def NodeID.zero : NodeID := ⟨['0'], by simp, by simp [isHex]⟩

/-- The steps of the system, by who takes them. -/
inductive Steps (lim : Limits) (s : State c) : Act ε → State c → Prop
  | start {node} (down : s.phase = .down) :
      Steps lim s (.start node)
        ⟨.recovering s.disk.listing true, .init c node s.disk.length, s.disk, node :: s.used⟩
  | crash {n} (up : s.phase ≠ .down) :
      Steps lim s (.crash n)
        ⟨.down, { Proc.init c s.proc.node s.disk.length with lastStart := s.proc.lastStart },
          leftover s.proc s.disk n, s.used⟩
  | put {e} (running : s.phase = .running) :
      Steps lim s (.put e) { s with proc := s.proc.put e }
  /-- `Drain` and its deadline. -/
  | signal {a closed abandon} (running : s.phase = .running)
      (stays : s.proc.closed = true → closed = true) :
      Steps lim s a { s with proc := { s.proc with closed := closed, abandon := abandon } }
  | recover {a ph p d}
      (recovers : Recovers s.proc s.disk s.phase ph p d) :
      Steps lim s (.recover a) { s with phase := ph, proc := p, disk := d }
  | writer {a p d} (running : s.phase = .running)
      (writes : Writes lim s.proc s.disk a p d) :
      Steps lim s (.writer a) { s with proc := p, disk := d }
  | uploader {a p d} (running : s.phase = .running)
      (uploads : Uploads s.proc s.disk p d) :
      Steps lim s (.uploader a) { s with proc := p, disk := d }

theorem of_run {s t : State c} {r : Option (Proc c × Disk c)} (h : s.run r = some t) :
    s.phase = .running ∧ ∃ x, r = some x ∧ t = { s with proc := x.1, disk := x.2 } := by
  obtain ⟨hrun, h⟩ := Option.ite_none_right_eq_some.1 h
  obtain ⟨x, hx, rfl⟩ := Option.map_eq_some_iff.1 h
  exact ⟨hrun, x, hx, rfl⟩

theorem steps_of_step {lim : Limits} {s t : State c} {a : Act ε} (hs : step lim s a = some t) :
    Steps lim s a t := by
  cases a with
  | start node =>
    obtain ⟨hdown, rfl⟩ := Lts.taken hs
    exact .start hdown
  | crash n =>
    obtain ⟨hup, rfl⟩ := Lts.taken hs
    exact .crash hup
  | put e =>
    obtain ⟨hrun, x, hx, rfl⟩ := of_run hs
    obtain rfl := Option.some.inj hx
    exact .put hrun
  | drain =>
    obtain ⟨hrun, x, hx, rfl⟩ := of_run hs
    obtain ⟨-, rfl⟩ := Lts.taken hx
    exact .signal hrun fun _ => rfl
  | expire =>
    obtain ⟨hrun, x, hx, rfl⟩ := of_run hs
    obtain ⟨-, rfl⟩ := Lts.taken hx
    exact .signal hrun id
  | recover a =>
    obtain ⟨x, hx, rfl⟩ := Option.map_eq_some_iff.1 hs
    exact .recover (recovers_of_step hx)
  | writer a =>
    obtain ⟨hrun, x, hx, rfl⟩ := of_run hs
    exact .writer hrun (writes_of_step hx)
  | uploader a =>
    obtain ⟨hrun, x, hx, rfl⟩ := of_run hs
    exact .uploader hrun (uploads_of_step hx)

/-- Two states of a process that differ in its queue and in what has become of the events. -/
structure Proc.Calls (p p' : Proc c) : Prop where
  node : p'.node = p.node
  lastStart : p'.lastStart = p.lastStart
  spooled : p'.spooled = p.spooled
  active : p'.active = p.active
  pc : p'.pc = p.pc
  up : p'.up = p.up
  base : p'.base = p.base

theorem Proc.put_calls (p : Proc c) (e : ε) : p.Calls (p.put e) := by
  unfold Proc.put
  split <;> exact ⟨rfl, rfl, rfl, rfl, rfl, rfl, rfl⟩

/-- An empty directory, and no process. -/
def lts (c : Codec ε) (lim : Limits) : Lts (State c) (Act ε) where
  init := ⟨.down, .init c .zero 0, [], []⟩
  step := step lim

end Tunneld.Spool

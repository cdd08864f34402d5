import Mathlib.Algebra.Order.Group.Multiset
import Mathlib.Tactic.Abel
import Tunneld.Store.Progress

/-!
# No log event is lost or counted twice

Every event given to `PutConnLog` is in the queue, in the writer's hands, counted as dropped or a
complete line of a file, and in one of these places only.  The events of a process are compared with
these places as multisets (`Account.balance`), so an event that was both written and dropped, or
written twice, would show.

That a line is complete is a matter of what is in the files, `Files`.  The active file has whole
lines only, of the size the writer takes it to have, except between a failed write and its undoing;
a file that the writer has let go of has whole lines only or could not be undone.  Nothing there
depends on the names of the files, and nothing on the nodes of the processes or on the clock.

An event does not stay in the queue or in the writer's hands for ever: after `Drain` the writer
comes to its end by steps of its own (`exists_returned`), each of which leaves less to do.

## Main results

* `events_conserved`: the balance, and that the writer can always come to its end.
-/

universe u

namespace Tunneld.Spool

variable {ε : Type u} {c : Codec ε} {lim : Limits} {p : Proc c} {d : Disk c}

/-! ## What is in the files -/

/-- What the code makes of the bytes of a file. -/
def File.content (f : File c) : Bytes × List (Entry c) × Bool := (f.bytes, f.written, f.torn)

theorem File.eq_of_content {f f' : File c} (h : f'.content = f.content) :
    f'.bytes = f.bytes ∧ f'.written = f.written ∧ f'.torn = f.torn := by
  simpa [File.content] using h

/-- What the active file is like while the writer stands somewhere. -/
def Pc.Holds (pc : Pc c) (w : Active) (f : File c) : Prop :=
  match pc with
  | .undo n => f.text.length = w.size ∧ f.bytes.length = w.size + n
  | .rotate _ => (f.Whole ∨ f.torn = true) ∧ f.bytes.length = w.size
  | _ => f.Whole ∧ f.bytes.length = w.size

theorem Pc.Plain.holds {pc : Pc c} (h : pc.Plain) {w : Active} {f : File c} :
    pc.Holds w f ↔ f.Whole ∧ f.bytes.length = w.size := by
  cases pc with
  | undo n => exact h.elim
  | rotate next => exact h.elim
  | _ => exact Iff.rfl

theorem Pc.holds_of_whole {pc : Pc c} (hpc : ∀ n, pc ≠ .undo n) {w : Active} {f : File c}
    (h : f.Whole ∧ f.bytes.length = w.size) : pc.Holds w f := by
  cases pc with
  | undo n => exact absurd rfl (hpc n)
  | rotate next => exact ⟨.inl h.1, h.2⟩
  | _ => exact h

structure Files (p : Proc c) (d : Disk c) : Prop where
  sound : ∀ f ∈ d, f.Sound
  base : p.base ≤ d.length
  /-- The active file is one of this process. -/
  active : ∀ w ∈ p.active, p.base ≤ w.id ∧ ∃ f, d[w.id]? = some f ∧ p.pc.Holds w f
  opening : ∀ start ∈ p.pc.instant, p.active = none
  writing : p.pc.Writing → p.active ≠ none
  /-- The other files of this process. -/
  settled : ∀ i f, d[i]? = some f → p.base ≤ i → (∀ w ∈ p.active, w.id ≠ i) →
    f.Whole ∨ f.torn = true

namespace Files

/-- Only the contents matter. -/
theorem congr (h : Files p d) {d' : Disk c} (hd : d'.map File.content = d.map File.content) :
    Files p d' := by
  have hget : ∀ {i : Nat} {f' : File c}, d'[i]? = some f' →
      ∃ f, d[i]? = some f ∧ f'.content = f.content := by
    intro i f' hf'
    have := congrArg (·[i]?) hd
    simp only [List.getElem?_map, hf', Option.map_some] at this
    obtain ⟨f, hf, hc⟩ := Option.map_eq_some_iff.1 this.symm
    exact ⟨f, hf, hc.symm⟩
  have hlen : d'.length = d.length := by simpa using congrArg List.length hd
  refine ⟨fun f' hf' => ?_, hlen ▸ h.base, fun w hw => ?_, h.opening, h.writing,
    fun i f' hf' hi hw => ?_⟩
  · obtain ⟨i, hi⟩ := List.mem_iff_getElem?.1 hf'
    obtain ⟨f, hf, hc⟩ := hget hi
    obtain ⟨hb, hwr, -⟩ := File.eq_of_content hc
    have := h.sound f (List.mem_of_getElem? hf)
    simpa only [File.Sound, File.text, hb, hwr] using this
  · obtain ⟨hbase, f, hf, hh⟩ := h.active w hw
    obtain ⟨f', hf', hc⟩ : ∃ f', d'[w.id]? = some f' ∧ f.content = f'.content := by
      have := congrArg (·[w.id]?) hd
      simp only [List.getElem?_map, hf, Option.map_some] at this
      obtain ⟨f', hf', hc⟩ := Option.map_eq_some_iff.1 this
      exact ⟨f', hf', hc.symm⟩
    obtain ⟨hb, hwr, ht⟩ := File.eq_of_content hc
    refine ⟨hbase, f', hf', ?_⟩
    simpa only [Pc.Holds, File.Whole, File.text, hb, hwr, ht] using hh
  · obtain ⟨f, hf, hc⟩ := hget hf'
    obtain ⟨hb, hwr, ht⟩ := File.eq_of_content hc
    have := h.settled i f hf hi hw
    simpa only [File.Whole, File.text, hb, hwr, ht] using this

variable {p' : Proc c}

theorem move (h : Files p d) (hpc : p.pc.Plain) (hpc' : ∀ n, p'.pc ≠ .undo n)
    (hbase : p'.base = p.base) (hact : p'.active = p.active)
    (hopen : ∀ start ∈ p'.pc.instant, p.active = none)
    (hwriting : p'.pc.Writing → p.active ≠ none) : Files p' d := by
  refine ⟨h.sound, hbase ▸ h.base, fun w hw => ?_, fun start ho => hact ▸ hopen start ho,
    hact ▸ hwriting, fun i f hf hi hw => ?_⟩
  · obtain ⟨hle, f, hf, hh⟩ := h.active w (hact ▸ hw)
    exact ⟨hbase ▸ hle, f, hf, Pc.holds_of_whole hpc' (hpc.holds.1 hh)⟩
  · exact h.settled i f hf (hbase ▸ hi) (hact ▸ hw)

theorem close (h : Files p d) {next next' : Next c} (hpc : p.pc = .rotate next) :
    Files { p with active := none, pc := next'.pc } d := by
  refine ⟨h.sound, h.base, by simp, fun _ _ => rfl, fun hw => absurd hw next'.not_writing,
    fun i f hf hi _ => ?_⟩
  by_cases hw : ∃ w ∈ p.active, w.id = i
  · obtain ⟨w, hw, rfl⟩ := hw
    obtain ⟨-, f', hf', hh⟩ := h.active w hw
    obtain rfl : f = f' := Option.some.inj (hf.symm.trans hf')
    rw [hpc] at hh
    exact hh.1
  · exact h.settled i f hf hi fun w hw' hid => hw ⟨w, hw', hid⟩

theorem opened (h : Files p d) (hact : p.active = none) (x : Entry c) (now start : Nat)
    (node : NodeID) :
    Files { p.opened now start d.length with pc := .write x } (d ++ [.fresh c start node]) := by
  have hwhole : (File.fresh c start node).Whole := rfl
  refine ⟨fun f hf => ?_, ?_, ?_, by simp [Pc.instant], by simp [Proc.opened],
    fun i f hf hi hw => ?_⟩
  · rcases List.mem_append.1 hf with hf | hf
    · exact h.sound f hf
    · rw [List.mem_singleton.1 hf]
      exact hwhole.sound
  · rw [List.length_append]
    exact Nat.le_add_right_of_le h.base
  · rintro w ⟨⟩
    exact ⟨h.base, .fresh c start node, by simp, hwhole, rfl⟩
  · have hne : d.length ≠ i := hw _ rfl
    have hlt := (List.getElem?_eq_some_iff.1 hf).1
    rw [List.length_append, List.length_singleton] at hlt
    rw [List.getElem?_append_left (by omega)] at hf
    exact h.settled i f hf hi (by simp [hact])

theorem modify (h : Files p d) {w w' : Active} {g : File c → File c} (hw : p.active = some w)
    (hw' : p'.active = some w') (hid : w'.id = w.id) (hbase : p'.base = p.base)
    (hopen : p'.pc.instant = none)
    (hg : ∀ f, f.Sound → p.pc.Holds w f → (g f).Sound ∧ p'.pc.Holds w' (g f)) :
    Files p' (d.modify w.id g) := by
  obtain ⟨hle, f, hf, hh⟩ := h.active w hw
  have hgf := hg f (h.sound f (List.mem_of_getElem? hf)) hh
  refine ⟨Disk.forall_modify h.sound hf hgf.1, ?_, fun v hv => ?_, by simp [hopen],
    by simp [hw'], fun i f' hf' hi hne => ?_⟩
  · rw [hbase, List.length_modify]
    exact h.base
  · rw [hw', Option.mem_some_iff] at hv
    obtain rfl := hv
    rw [hbase, hid]
    exact ⟨hle, g f, Disk.get_modify_self hf, hgf.2⟩
  · have hwi : w.id ≠ i := hid ▸ hne w' hw'
    rw [Disk.get_modify_of_ne hwi] at hf'
    refine h.settled i f' hf' (hbase ▸ hi) fun v hv => ?_
    rw [hw, Option.mem_some_iff] at hv
    rwa [← hv]

theorem cut (h : Files p d) (hact : p.active = none) {i : Nat} {f : File c}
    (hf : d[i]? = some f) : Files p (d.modify i (File.cut (Lines.keep newline f.bytes))) := by
  have hs := h.sound f (List.mem_of_getElem? hf)
  have hwhole := hs.whole_cut hs.keep_eq.symm
  refine ⟨Disk.forall_modify h.sound hf hwhole.sound, ?_, by simp [hact], fun _ _ => hact,
    h.writing, fun j f' hf' hj hne => ?_⟩
  · rw [List.length_modify]
    exact h.base
  · by_cases hij : i = j
    · subst hij
      rw [Disk.get_modify_self hf] at hf'
      obtain rfl := Option.some.inj hf'
      exact .inl hwhole
    · rw [Disk.get_modify_of_ne hij] at hf'
      exact h.settled j f' hf' hj (by simp [hact])

variable {w : Active}

theorem write (h : Files p d) {x : Entry c} (hpc : p.pc = .write x) (hw : p.active = some w) :
    Files { p.grow w x.line.length with
        pc := if lim.maxFile ≤ w.size + x.line.length then .rotate .done else .select }
      (d.modify w.id (File.append x x.line.length)) := by
  refine h.modify hw rfl rfl rfl ?_ fun f hf hh => ?_
  · dsimp only
    split <;> rfl
  · rw [hpc] at hh
    have hwhole := hh.1.append_line (x := x)
    refine ⟨hwhole.sound, Pc.holds_of_whole (fun n => ?_) ⟨hwhole, ?_⟩⟩
    · dsimp only
      split <;> simp
    · show (f.bytes ++ x.line.take x.line.length).length = w.size + x.line.length
      rw [List.take_length, List.length_append, hh.2]

variable {n : Nat}

theorem fail (h : Files p d) {x : Entry c} (hpc : p.pc = .write x) (hw : p.active = some w)
    (hn : n < x.line.length) :
    Files { p.drop x.event with pc := .undo n } (d.modify w.id (File.append x n)) := by
  refine h.modify hw hw rfl rfl rfl fun f hf hh => ?_
  rw [hpc] at hh
  refine ⟨hh.1.append_sound, ?_, ?_⟩
  · rw [File.text_append, if_pos hn, ← hh.1]
    exact hh.2
  · show (f.bytes ++ x.line.take n).length = w.size + n
    rw [List.length_append, hh.2, List.length_take, Nat.min_eq_left hn.le]

theorem undo (h : Files p d) (hpc : p.pc = .undo n) (hw : p.active = some w) :
    Files { p with pc := .select } (d.modify w.id (File.cut w.size)) := by
  refine h.modify hw hw rfl rfl rfl fun f hf hh => ?_
  rw [hpc] at hh
  have hwhole := hf.whole_cut hh.1
  refine ⟨hwhole.sound, hwhole, ?_⟩
  show (f.bytes.take w.size).length = w.size
  rw [List.length_take, hh.2, Nat.min_eq_left (Nat.le_add_right ..)]

theorem tear (h : Files p d) (hpc : p.pc = .undo n) (hw : p.active = some w) :
    Files { p.grow w n with pc := .rotate .done } (d.modify w.id File.tear) := by
  refine h.modify hw rfl rfl rfl rfl fun f hf hh => ?_
  rw [hpc] at hh
  exact ⟨hf, .inr rfl, hh.2⟩

theorem leftover (h : Files p d) (n : Nat) : ∀ f ∈ leftover p d n, f.Sound := by
  unfold Spool.leftover
  split
  · rename_i x w hpc hw
    obtain ⟨-, f, hf, hh⟩ := h.active w hw
    rw [hpc] at hh
    exact Disk.forall_modify h.sound hf hh.1.append_sound
  · exact h.sound

theorem writes (h : Files p d) {a : WriterAct} {d' : Disk c} (hs : Writes lim p d a p' d') :
    Files p' d' := by
  cases hs with
  | move moves =>
    refine h.move moves.plain moves.ne_undo rfl rfl (fun start hstart => ?_) moves.writing
    rcases moves.opening start hstart with ⟨-, hact⟩ | ⟨start', hstart', -⟩
    · exact hact
    · exact h.opening start' hstart'
  | lose plain hand =>
    exact h.move plain (by simp [Proc.lose]) rfl rfl (by simp [Proc.lose, Pc.instant]) False.elim
  | create pc free => exact h.opened (h.opening _ (by rw [pc]; rfl)) _ _ _ _
  | write pc active => exact h.write pc active
  | fail pc active short => exact h.fail pc active short
  | undo pc active => exact h.undo pc active
  | tear pc active => exact h.tear pc active
  | leave pc => exact h.close pc
  | remove pc active empty => exact (h.close pc).congr (Disk.map_onName fun _ => rfl)
  | finish pc active => exact (h.close pc).congr (Disk.map_rename fun _ _ _ => rfl)

end Files

/-! ## Where the events are -/

/-- The events written to the files behind the first `base`. -/
def Disk.events (d : Disk c) (base : Nat) : List ε :=
  ((d.map File.written).drop base).flatten.map Entry.event

theorem perm_flatten_modify {α : Type*} {l : List (List α)} {i : Nat} {a : List α}
    (h : l[i]? = some a) (b : List α) : (l.modify i (· ++ b)).flatten.Perm (l.flatten ++ b) := by
  induction l generalizing i with
  | nil => simp at h
  | cons a' l ih =>
    cases i with
    | zero =>
      simp only [List.modify_zero_cons, List.flatten_cons, List.append_assoc]
      exact List.perm_append_comm.append_left a'
    | succ i =>
      simp only [List.modify_succ_cons, List.flatten_cons, List.append_assoc]
      exact (ih (by simpa using h)).append_left a'

namespace Disk

theorem events_congr {d d' : Disk c} (h : d'.map File.written = d.map File.written) (base : Nat) :
    d'.events base = d.events base := by
  rw [events, events, h]

theorem events_concat_fresh {base : Nat} (h : base ≤ d.length) (start : Nat) (node : NodeID) :
    Disk.events (d ++ [.fresh c start node]) base = d.events base := by
  have hle : base ≤ (d.map File.written).length := by rwa [List.length_map]
  rw [events, List.map_append, List.drop_append_of_le_length hle]
  simp [events, File.fresh]

theorem events_length (d : Disk c) : d.events d.length = [] := by
  rw [events, List.drop_of_length_le (by rw [List.length_map])]
  rfl

theorem events_append {base i : Nat} {f : File c} (hf : d[i]? = some f) (hi : base ≤ i)
    (x : Entry c) :
    (Disk.events (d.modify i (File.append x x.line.length)) base : Multiset ε) =
      d.events base + {x.event} := by
  have hmap : (d.modify i (File.append x x.line.length)).map File.written =
      (d.map File.written).modify i (· ++ [x]) := by
    refine List.ext_getElem? fun j => ?_
    rw [List.getElem?_map, List.getElem?_modify, List.getElem?_modify, List.getElem?_map]
    cases d[j]? with
    | none => rfl
    | some f' =>
      by_cases hij : i = j
      · simp [hij, File.append]
      · simp [hij]
  have hget : ((d.map File.written).drop base)[i - base]? = some f.written := by
    rw [List.getElem?_drop, Nat.add_sub_cancel' hi, List.getElem?_map, hf]
    rfl
  rw [events, hmap, List.drop_modify_of_ge _ _ _ _ hi, ← Multiset.coe_singleton, Multiset.coe_add,
    Multiset.coe_eq_coe]
  have := (perm_flatten_modify hget [x]).map Entry.event
  rwa [List.map_append] at this

end Disk

structure Account (p : Proc c) (d : Disk c) : Prop where
  drops : p.drops = p.dropped.length
  balance : (p.puts : Multiset ε) =
    p.pc.hand + p.queue + p.dropped + d.events p.base
  stopping : p.pc.Stopping → p.closed = true ∧ p.queue = []

namespace Account

theorem init (c : Codec ε) (node : NodeID) (d : Disk c) : Account (.init c node d.length) d := by
  refine ⟨rfl, ?_, False.elim⟩
  rw [show (Proc.init c node d.length).base = d.length from rfl, Disk.events_length]
  rfl

theorem drop (h : Account p d) {e : ε} (hhand : p.pc.hand = [e]) {pc : Pc c} (hpc : pc.hand = [])
    (hstop : ¬ pc.Stopping) : Account { p.drop e with pc := pc } d := by
  refine ⟨?_, ?_, fun hs => (hstop hs).elim⟩
  · show p.drops + 1 = (p.dropped ++ [e]).length
    rw [List.length_append, h.drops]
    rfl
  · show (p.puts : Multiset ε) =
      pc.hand + p.queue + (p.dropped ++ [e] : List ε) + d.events p.base
    rw [h.balance, hhand, hpc, ← Multiset.coe_add, Multiset.coe_nil]
    abel

theorem put (h : Account p d) (e : ε) : Account (p.put e) d := by
  unfold Proc.put
  split
  · rename_i hc
    refine ⟨h.drops, ?_, fun hs => absurd (h.stopping hs).1 (by simp [hc.1])⟩
    show ((p.puts ++ [e] : List ε) : Multiset ε) =
      p.pc.hand + (p.queue ++ [e] : List ε) + p.dropped + d.events p.base
    rw [← Multiset.coe_add, ← Multiset.coe_add, h.balance]
    abel
  · refine ⟨?_, ?_, h.stopping⟩
    · show p.drops + 1 = (p.dropped ++ [e]).length
      rw [List.length_append, h.drops]
      rfl
    · show ((p.puts ++ [e] : List ε) : Multiset ε) =
        p.pc.hand + p.queue + (p.dropped ++ [e] : List ε) + d.events p.base
      rw [← Multiset.coe_add, ← Multiset.coe_add, h.balance]
      abel

variable {d' : Disk c}

/-- No line is written and no event is done with. -/
theorem congr (h : Account p d) {p' : Proc c} (hd : d'.events p.base = d.events p.base)
    (hbase : p'.base = p.base) (hputs : p'.puts = p.puts) (hdropped : p'.dropped = p.dropped)
    (hdrops : p'.drops = p.drops) (hhand : p'.pc.hand ++ p'.queue = p.pc.hand ++ p.queue)
    (hstop : p'.pc.Stopping → p'.closed = true ∧ p'.queue = []) : Account p' d' := by
  refine ⟨by rw [hdrops, hdropped, h.drops], ?_, hstop⟩
  rw [hputs, hdropped, hbase, hd, h.balance, Multiset.coe_add p'.pc.hand, hhand,
    Multiset.coe_add p.pc.hand]

theorem rotated (h : Account p d) {next : Next c} (hpc : p.pc = .rotate next)
    (hd : d'.map File.written = d.map File.written) :
    Account { p with active := none, pc := next.pc } d' := by
  refine h.congr (Disk.events_congr hd _) rfl rfl rfl rfl ?_ fun hs => h.stopping ?_
  · rw [hpc, Next.hand_pc]
    rfl
  · rw [hpc]
    exact next.stopping_pc.1 hs

theorem writes (h : Account p d) (hf : Files p d) {a : WriterAct} {p' : Proc c}
    (hs : Writes lim p d a p' d') : Account p' d' := by
  cases hs with
  | move moves => exact h.congr rfl rfl rfl rfl rfl moves.hand moves.stopping
  | lose plain hand => exact h.drop hand rfl id
  | create pc free =>
    refine h.congr (Disk.events_concat_fresh hf.base _ _) rfl rfl rfl rfl ?_ False.elim
    rw [pc]
    rfl
  | @write x w pc active =>
    obtain ⟨hbase, f, hget, -⟩ := hf.active w active
    refine ⟨h.drops, ?_, ?_⟩
    · have hhand : (if lim.maxFile ≤ w.size + x.line.length then .rotate .done else .select :
          Pc c).hand = [] := by
        split <;> rfl
      show (p.puts : Multiset ε) =
        (if lim.maxFile ≤ w.size + x.line.length then .rotate .done else .select : Pc c).hand +
          p.queue + p.dropped +
          Disk.events (d.modify w.id (File.append x x.line.length)) p.base
      rw [Disk.events_append hget hbase, h.balance, pc, hhand, Multiset.coe_nil,
        ← Multiset.coe_singleton]
      show ([x.event] : Multiset ε) + _ + _ + _ = _
      abel
    · dsimp only
      split <;> exact False.elim
  | @fail x w n pc active short =>
    refine (h.drop (by rw [pc]; rfl) rfl id).congr ?_ rfl rfl rfl rfl rfl False.elim
    refine Disk.events_congr (Disk.map_modify fun f => ?_) _
    show (if n < x.line.length then f.written else f.written ++ [x]) = f.written
    rw [if_pos short]
  | undo pc active =>
    refine h.congr (Disk.events_congr ?_ _) rfl rfl rfl rfl ?_ False.elim
    · exact Disk.map_modify fun _ => rfl
    · rw [pc]
      rfl
  | tear pc active =>
    refine h.congr (Disk.events_congr ?_ _) rfl rfl rfl rfl ?_ False.elim
    · exact Disk.map_modify fun _ => rfl
    · rw [pc]
      rfl
  | leave pc => exact h.rotated pc rfl
  | remove pc active empty => exact h.rotated pc (Disk.map_onName fun _ => rfl)
  | finish pc active => exact h.rotated pc (Disk.map_rename fun _ _ _ => rfl)

end Account

/-! ## The whole run -/

/-- Two states of a process that differ in what the account does not look at. -/
structure Proc.Same (p p' : Proc c) : Prop where
  base : p'.base = p.base
  active : p'.active = p.active
  pc : p'.pc = p.pc
  queue : p'.queue = p.queue
  drops : p'.drops = p.drops
  puts : p'.puts = p.puts
  dropped : p'.dropped = p.dropped
  closed : p.closed = true → p'.closed = true

/-- The uploader and recovery change nothing else of the process. -/
theorem Proc.same (p : Proc c) (n : Int) (up : Up) : p.Same { p with spooled := n, up := up } :=
  ⟨rfl, rfl, rfl, rfl, rfl, rfl, rfl, id⟩

structure Inv (s : State c) : Prop where
  files : Files s.proc s.disk
  account : Account s.proc s.disk
  idle : s.phase ≠ .running → s.proc.active = none

namespace Inv

variable {s t : State c}

/-- Neither an event nor the content of a file has changed. -/
theorem same (h : Inv s) (hp : s.proc.Same t.proc)
    (hd : t.disk.map File.content = s.disk.map File.content)
    (hph : t.phase ≠ .running → s.phase ≠ .running) : Inv t := by
  have hwritten : t.disk.map File.written = s.disk.map File.written := by
    simpa [Function.comp_def, File.content] using congrArg (List.map fun x => x.2.1) hd
  obtain ⟨hsound, hbase, hact, hopen, hwriting, hsettled⟩ := h.files.congr hd
  refine ⟨⟨hsound, hp.base ▸ hbase, ?_, ?_, ?_, ?_⟩, ?_, fun hr => hp.active ▸ h.idle (hph hr)⟩
  · rw [hp.active, hp.base, hp.pc]
    exact hact
  · rw [hp.active, hp.pc]
    exact hopen
  · rw [hp.active, hp.pc]
    exact hwriting
  · rw [hp.active, hp.base]
    exact hsettled
  · refine h.account.congr (Disk.events_congr hwritten _) hp.base hp.puts hp.dropped hp.drops ?_ ?_
    · rw [hp.pc, hp.queue]
    · rw [hp.pc, hp.queue]
      exact fun hs => ⟨hp.closed (h.account.stopping hs).1, (h.account.stopping hs).2⟩

theorem uploads (h : Inv s) (hs : Uploads s.proc s.disk p d) :
    Inv { s with proc := p, disk := d } := by
  cases hs with
  | turn quiet => exact h.same (s.proc.same _ _) rfl id
  | «open» key lookup => exact h.same (s.proc.same _ _) rfl id
  | send up =>
    exact h.same (s.proc.same _ _) (Disk.map_modify fun _ => rfl) id
  | remove up =>
    exact h.same (s.proc.same _ _) (Disk.map_onName fun _ => rfl) id

theorem recovers (h : Inv s) {ph : Phase} (hs : Recovers s.proc s.disk s.phase ph p d) :
    Inv { s with phase := ph, proc := p, disk := d } := by
  generalize hph : s.phase = ph₀ at hs
  have hidle : ph₀ ≠ .running → s.proc.active = none := hph ▸ h.idle
  cases hs with
  | skip done =>
    exact h.same (s.proc.same _ _) rfl fun _ => by simp [hph]
  | remove part lookup none_complete =>
    exact h.same (s.proc.same _ _) (Disk.map_onName fun _ => rfl)
      fun _ => by simp [hph]
  | @cut name todo clean i f part lookup some_complete =>
    obtain ⟨hres, hf, -⟩ := Disk.resolve_of_lookup lookup
    have hact := hidle (by simp)
    refine ⟨?_, ?_, fun _ => hact⟩
    · show Files s.proc (s.disk.truncate name _)
      rw [Disk.truncate, Disk.onName_of_resolve hres]
      exact h.files.cut hact hf
    · refine h.account.congr (Disk.events_congr ?_ _) rfl rfl rfl rfl rfl h.account.stopping
      exact Disk.map_onName fun _ => rfl
  | rename =>
    exact h.same (s.proc.same _ _) (Disk.map_rename fun _ _ _ => rfl)
      fun _ => by simp [hph]
  | fail => exact h.same (s.proc.same _ _) rfl fun _ => by simp [hph]
  | serve => exact h.same (s.proc.same _ _) rfl fun _ => by simp [hph]

theorem init (node : NodeID) (lastStart : Nat) (ph : Phase) (used : List NodeID)
    (hd : ∀ f ∈ d, f.Sound) :
    Inv ⟨ph, { Proc.init c node d.length with lastStart := lastStart }, d, used⟩ := by
  refine ⟨⟨hd, Nat.le_refl _, by simp [Proc.init], fun _ _ => rfl, False.elim,
    fun i f hf hi => ?_⟩, ?_, fun _ => rfl⟩
  · have hlt := (List.getElem?_eq_some_iff.1 hf).1
    exact absurd hi (Nat.not_le.2 hlt)
  · obtain ⟨hdrops, hbalance, hstop⟩ := Account.init c node d
    exact ⟨hdrops, hbalance, hstop⟩

theorem step (h : Inv s) {a : Act ε} (hs : Spool.step lim s a = some t) : Inv t := by
  cases steps_of_step hs with
  | start down => exact init _ 0 _ _ h.files.sound
  | @crash n up =>
    have := init s.proc.node s.proc.lastStart .down s.used (h.files.leftover n)
    rwa [length_leftover] at this
  | @put e running =>
    obtain ⟨-, -, -, hact, hpc, -, hbase⟩ := s.proc.put_calls e
    refine ⟨⟨h.files.sound, hbase ▸ h.files.base, ?_, ?_, ?_, ?_⟩, h.account.put e,
      fun hr => absurd running hr⟩
    · rw [hbase, hact, hpc]
      exact h.files.active
    · rw [hact, hpc]
      exact h.files.opening
    · rw [hact, hpc]
      exact h.files.writing
    · rw [hbase, hact]
      exact h.files.settled
  | signal running stays =>
    exact h.same ⟨rfl, rfl, rfl, rfl, rfl, rfl, rfl, stays⟩ rfl id
  | recover recovers => exact h.recovers recovers
  | writer running writes =>
    exact ⟨h.files.writes writes, h.account.writes h.files writes, fun hr => absurd running hr⟩
  | uploader running uploads => exact h.uploads uploads

theorem of_reach {g : State c → Act ε → Prop} (h : (lts c lim).Reach g s) : Inv s := by
  refine h.invariant ?_ fun s a t _ hi _ hs => hi.step hs
  exact init .zero 0 .down [] fun f hf => absurd hf List.not_mem_nil

end Inv

/-! ## The end of the writer -/

/-- Only the writer goes on, and its clock does not tick. -/
def WriterOnly (_ : State c) (a : Act ε) : Prop := ∃ b, a = .writer b ∧ ∀ now, b ≠ .tick now

theorem Writes.calls_eq {a : WriterAct} {p p' : Proc c} {d d' : Disk c}
    (h : Writes lim p d a p' d') :
    p'.closed = p.closed ∧ p'.puts = p.puts := by
  cases h <;> exact ⟨rfl, rfl⟩

variable {s : State c}

/-- A writer with something to do can do it, and has less to do then. -/
theorem exists_writer_step (h : (lts c lim).Reach Lts.always s) (hrun : s.phase = .running)
    (hbusy : s.proc.Busy) :
    ∃ a t, WriterOnly s a ∧ (lts c lim).step s a = some t ∧ t.phase = .running ∧
      t.proc.closed = s.proc.closed ∧ t.proc.puts = s.proc.puts ∧ t.proc.work < s.proc.work := by
  obtain ⟨a, r, ha, hs⟩ := exists_step lim hbusy (Inv.of_reach h).files.writing s.disk
  have hstep : (lts c lim).step s (.writer a) = some { s with proc := r.1, disk := r.2 } := by
    simp [lts, step, State.run, hrun, hs]
  obtain ⟨hclosed, hputs⟩ := (writes_of_step hs).calls_eq
  exact ⟨.writer a, _, ⟨a, rfl, ha⟩, hstep, hrun, hclosed, hputs, work_lt_of_step hs ha⟩

/-- Once the queue is closed, the writer needs nobody to come to its end. -/
theorem exists_returned (h : (lts c lim).Reach Lts.always s) (hrun : s.phase = .running)
    (hclosed : s.proc.closed = true) :
    ∃ t, (lts c lim).Later WriterOnly s t ∧ t.proc.pc = .stopped ∧ t.proc.puts = s.proc.puts := by
  have hgoes : ∃ t, (lts c lim).Later WriterOnly s t ∧
      ((lts c lim).Reach Lts.always t ∧ t.phase = .running ∧ t.proc.closed = true ∧
        t.proc.puts = s.proc.puts) ∧ t.proc.pc = .stopped := by
    refine Lts.exists_later_of_measure (fun t => t.proc.work) ?_ ⟨h, hrun, hclosed, rfl⟩
    rintro t ⟨hr, hrun, hclosed, hputs⟩ hpc
    obtain ⟨a, t', hg, hs, hrun', hclosed', hputs', hlt⟩ :=
      exists_writer_step hr hrun ⟨hpc, fun _ _ => hclosed⟩
    exact ⟨a, t', hg, hs,
      ⟨hr.tail ⟨a, trivial, hs⟩, hrun', hclosed'.trans hclosed, hputs'.trans hputs⟩, hlt⟩
  obtain ⟨t, hl, ⟨-, -, -, hputs⟩, hpc⟩ := hgoes
  exact ⟨t, hl, hpc, hputs⟩

/-- Every event put in is in the writer's hands, in the queue, counted as dropped or a line of a
file of this process, in one of these only.  When the writer has returned it is one of the last two,
and once the queue is closed the writer can always go on until it returns.  The complete lines of a
file are the encodings of the events written to it, and behind them there is nothing, unless a write
could not be undone or is just about to be. -/
theorem events_conserved (h : (lts c lim).Reach Lts.always s) :
    s.proc.drops = s.proc.dropped.length ∧
    (s.proc.puts : Multiset ε) =
      s.proc.pc.hand + s.proc.queue + s.proc.dropped + s.disk.events s.proc.base ∧
    (s.proc.pc = .stopped → s.proc.pc.hand = [] ∧ s.proc.queue = []) ∧
    (s.phase = .running → s.proc.closed = true →
      ∃ t, (lts c lim).Later WriterOnly s t ∧ t.proc.pc = .stopped ∧
        t.proc.puts = s.proc.puts) ∧
    ∀ i f, s.disk[i]? = some f → s.proc.base ≤ i →
      f.complete = f.written.map Entry.body ∧
      (f.rest ≠ [] → f.torn = true ∨ ∃ w ∈ s.proc.active, w.id = i ∧ ∃ n, s.proc.pc = .undo n) := by
  have hinv := Inv.of_reach h
  refine ⟨hinv.account.drops, hinv.account.balance, fun hpc => ⟨by rw [hpc]; rfl, ?_⟩,
    exists_returned h, fun i f hf hi => ⟨?_, fun hrest => ?_⟩⟩
  · exact (hinv.account.stopping (hpc ▸ trivial)).2
  · exact (hinv.files.sound f (List.mem_of_getElem? hf)).complete_eq
  · by_cases hw : ∃ w ∈ s.proc.active, w.id = i
    · obtain ⟨w, hw, rfl⟩ := hw
      obtain ⟨-, f', hf', hh⟩ := hinv.files.active w hw
      obtain rfl : f = f' := Option.some.inj (hf.symm.trans hf')
      cases hpc : s.proc.pc with
      | undo n => exact .inr ⟨w, hw, rfl, n, rfl⟩
      | rotate next =>
        rw [hpc] at hh
        exact .inl (hh.1.resolve_left fun hwhole => hrest hwhole.rest_eq_nil)
      | _ =>
        rw [hpc] at hh
        exact absurd hh.1.rest_eq_nil hrest
    · have hsettled := hinv.files.settled i f hf hi fun w hw' hid => hw ⟨w, hw', hid⟩
      exact .inl (hsettled.resolve_left fun hwhole => hrest hwhole.rest_eq_nil)

/-- Two events: one is `{}` in JSON, the other has a time that `json.Marshal` refuses. -/
def flagCodec : Codec Bool where
  marshal e := if e = true then some [123, 125] else none
  no_newline e b h := by
    obtain ⟨-, hb⟩ := Option.ite_none_right_eq_some.1 h
    obtain rfl := Option.some.inj hb
    decide

def smallLimits : Limits := ⟨4, 8, by decide, by decide⟩

/-- Of four events one is written, one cannot be encoded, one is cut off by a write that fails and
cannot be undone, and for one no file can be opened; then the writer returns. -/
theorem events_conserved_after_drain :
    ∃ s, (lts flagCodec smallLimits).Reach Lts.always s ∧ s.proc.pc = .stopped ∧
      s.proc.puts = [true, false, true, true] ∧ s.disk.events s.proc.base = [true] ∧
      (s.proc.puts : Multiset Bool) =
        s.proc.pc.hand + s.proc.queue + s.proc.dropped + s.disk.events s.proc.base := by
  obtain ⟨s, hr, hpc, hputs, hevents⟩ := Lts.exists_reach_of_any
    (L := lts flagCodec smallLimits) (g := Lts.always)
    (l := [.start .zero, .recover .serve, .put true, .put false, .put true, .put true,
      .writer .take, .writer .check, .writer (.clock 5), .writer .cap, .writer (.lstat true),
      .writer (.create true), .writer (.write none), .writer .take, .writer .check,
      .writer .take, .writer .check, .writer (.clock 7), .writer .cap, .writer (.write (some 1)),
      .writer (.undo false), .drain, .writer (.rotate false false true), .writer .take,
      .writer .check, .writer (.clock 3), .writer .cap, .writer (.lstat false), .writer .take,
      .writer (.rotate true true true)])
    (P := fun s => s.proc.pc = .stopped ∧ s.proc.puts = [true, false, true, true] ∧
      s.disk.events s.proc.base = [true]) (by decide +kernel)
  exact ⟨s, hr, hpc, hputs, hevents, (events_conserved hr).2.1⟩

end Tunneld.Spool

import Tunneld.Store.Conservation
import Tunneld.Store.Directory

/-!
# Log files survive crashes

A directory outlives the processes that use it.  What each of them needs to find there is that
every file has its own name and key, that a file with complete lines is still there until all of it
has been uploaded, and that what is marked as ready has no half a line in it.  These are
`Idents` and `File.Kept`, and they are kept by every step, crashes and recovery included.

Names are unique because instants are.  Within a process `lastStart` only grows, whatever the clock
does, so its files have different instants; the files of different processes have different nodes.
That no process has the node of an earlier one is an assumption on the runs, `Fresh`, and so is that
the instants are before the year 10000, when a date no longer has four digits.

Recovery deletes the active file of a process that had not got as far as a complete line.

## Main results

* `logs_survive`: no complete line is lost, in any number of crashes;
* `first_line_deleted`: a file with half a line is.
-/

universe u

namespace Tunneld.Spool

open Timestamp (limit)

variable {ε : Type u} {c : Codec ε} {lim : Limits} {p : Proc c} {d : Disk c}

/-- No process has the node of an earlier one, and no name needs more than four digits for its
year. -/
def Fresh (s : State c) : Act ε → Prop
  | .start node => node ∉ s.used
  | .writer _ => ∀ start ∈ s.proc.pc.instant, start < limit
  | _ => True

instance (s : State c) (a : Act ε) : Decidable (Fresh s a) := by
  unfold Fresh; split <;> infer_instance

/-! ## Names -/

namespace File

structure Kept (f : File c) : Prop where
  form : ∀ n ∈ f.name, n = f.part ∨ n = f.ready
  /-- A line that is not whole is in a ready file only if the writer left it there. -/
  whole : f.name = some f.ready → f.Whole ∨ f.torn = true ∧ f.finished = true
  /-- A file goes when it has been uploaded, or has no complete line. -/
  gone : f.name = none → f.uploaded = some f.bytes ∨ f.written = []
  sent : ∀ b ∈ f.uploaded, b = f.bytes ∧ f.name ≠ some f.part

variable {f : File c}

theorem Kept.uploaded_eq_none (h : f.Kept) (hname : f.name = some f.part) : f.uploaded = none := by
  cases hup : f.uploaded with
  | none => rfl
  | some b => exact absurd hname (h.sent b hup).2

/-- While a file is written there is nothing to keep but its name. -/
theorem Kept.of_part (hname : f.name = some f.part) (hup : f.uploaded = none) : f.Kept := by
  refine ⟨fun n hn => ?_, fun hr => ?_, fun hg => ?_, by simp [hup]⟩
  · rw [hname, Option.mem_some_iff] at hn
    exact .inl hn.symm
  · exact absurd (Option.some.inj (hr.symm.trans hname)) ready_ne_part
  · simp [hname] at hg

theorem Kept.unname (h : f.Kept) (hdone : f.uploaded = some f.bytes ∨ f.written = []) :
    f.unname.Kept :=
  ⟨by simp [File.unname], by simp [File.unname], fun _ => hdone,
    fun b hb => ⟨(h.sent b hb).1, by simp [File.unname]⟩⟩

theorem Kept.rename (h : f.Kept) (hname : f.name = some f.part) {writer : Bool}
    (hwhole : f.Whole ∨ f.torn = true ∧ writer = true) : (f.rename f.ready writer).Kept := by
  have hup := h.uploaded_eq_none hname
  refine ⟨fun n hn => ?_, fun _ => ?_, by simp [File.rename], by simp [File.rename, hup]⟩
  · rw [File.rename, Option.mem_some_iff] at hn
    exact .inr hn.symm
  · rcases hwhole with hwhole | ⟨htorn, hwriter⟩
    · exact .inl hwhole
    · exact .inr ⟨htorn, by simp [File.rename, hwriter]⟩

theorem Kept.upload (h : f.Kept) (hname : f.name = some f.ready) :
    (f.upload f.bytes.length).Kept := by
  refine ⟨h.form, h.whole, fun _ => ?_, fun b hb => ?_⟩
  · exact .inl (by simp [File.upload])
  · have : f.bytes.take f.bytes.length = b := Option.some.inj hb
    refine ⟨this.symm.trans (List.take_length ..), fun hpart => ?_⟩
    exact ready_ne_part (Option.some.inj (hname.symm.trans hpart))

end File

/-- The instants and nodes of the files so far. -/
structure Idents (used : List NodeID) (p : Proc c) (d : Disk c) : Prop where
  nodup : (d.map File.ident).Nodup
  lt : ∀ x ∈ d.map File.ident, x.1 < limit
  used : ∀ x ∈ d.map File.ident, x.2 ∈ used
  last : ∀ x ∈ d.map File.ident, x.2 = p.node → x.1 ≤ p.lastStart

namespace Idents

variable {used : List NodeID} {i j : Nat} {f g : File c}

theorem congr (h : Idents used p d) {p' : Proc c} {d' : Disk c}
    (hd : d'.map File.ident = d.map File.ident) (hnode : p'.node = p.node)
    (hlast : p'.lastStart = p.lastStart) : Idents used p' d' := by
  refine ⟨hd ▸ h.nodup, hd ▸ h.lt, hd ▸ h.used, ?_⟩
  rw [hd, hnode, hlast]
  exact h.last

theorem start_lt (h : Idents used p d) (hf : f ∈ d) : f.start < limit :=
  h.lt _ (List.mem_map_of_mem hf)

theorem index_eq (h : Idents used p d) (hf : d[i]? = some f) (hg : d[j]? = some g)
    (hident : f.ident = g.ident) : i = j := by
  have hlt : i < (d.map File.ident).length := by
    rw [List.length_map]
    exact (List.getElem?_eq_some_iff.1 hf).1
  refine (List.getElem?_inj hlt h.nodup).1 ?_
  rw [List.getElem?_map, List.getElem?_map, hf, hg, Option.map_some, Option.map_some, hident]

end Idents

/-! ## Who works on which file -/

/-- What recovery has still to do, if nothing has gone wrong. -/
def Phase.Ok (ph : Phase) (d : Disk c) : Prop :=
  match ph with
  | .recovering todo clean => clean = true → ∀ f ∈ d, f.name = some f.part → f.part ∈ todo
  | .renaming name _ todo clean =>
    (∃ (i : Nat) (f : File c),
        d[i]? = some f ∧ f.name = some f.part ∧ name = f.part ∧ f.Whole) ∧
      (clean = true → ∀ f ∈ d, f.name = some f.part → f.part = name ∨ f.part ∈ todo)
  | _ => True

/-! ## The whole run -/

/-- A tidy directory, where every file has a name of its own and is kept. -/
structure Names (s : State c) : Prop where
  tidy : Tidy s
  idents : Idents s.used s.proc s.disk
  kept : ∀ f ∈ s.disk, f.Kept
  instant : ∀ start ∈ s.proc.pc.instant, s.proc.lastStart < start
  phase : s.phase.Ok s.disk
  node : s.phase ≠ .down → s.proc.node ∈ s.used

namespace Names

variable {s t : State c}

theorem ran (h : Names s) (hrun : s.phase = .running) (ht : Tidy { s with proc := p, disk := d })
    (hd : d.map File.ident = s.disk.map File.ident) (hkept : ∀ f ∈ d, f.Kept)
    (hnode : p.node = s.proc.node) (hlast : p.lastStart = s.proc.lastStart)
    (hinstant : ∀ start ∈ p.pc.instant, s.proc.lastStart < start) :
    Names { s with proc := p, disk := d } := by
  refine ⟨ht, h.idents.congr hd hnode hlast, hkept, fun start hs => ?_,
    by simp only [hrun]; trivial, fun hd => hnode ▸ h.node hd⟩
  rw [hlast]
  exact hinstant start hs

theorem kept_wrote (h : Names s) {w : Active} {g : File c → File c} (hw : s.proc.active = some w)
    (hg : ∀ f, (g f).ident = f.ident ∧ (g f).name = f.name ∧ (g f).uploaded = f.uploaded) :
    ∀ f ∈ s.disk.modify w.id g, f.Kept := by
  obtain ⟨f, hf, hname, -⟩ := h.tidy.active w hw
  obtain ⟨hident, hsame, hup⟩ := hg f
  refine Disk.forall_modify h.kept hf (.of_part ?_ ?_)
  · rw [hsame, hname, (File.names_of_ident hident).1]
  · rw [hup, (h.kept f (List.mem_of_getElem? hf)).uploaded_eq_none hname]

theorem opened (h : Names s) (hrun : s.phase = .running) {x : Entry c} {now start : Nat}
    (ht : Tidy { s with
      proc := { s.proc.opened now start s.disk.length with pc := .write x }
      disk := s.disk ++ [.fresh c start s.proc.node] })
    (hlast : s.proc.lastStart < start) (hlt : start < limit) :
    Names { s with
      proc := { s.proc.opened now start s.disk.length with pc := .write x }
      disk := s.disk ++ [.fresh c start s.proc.node] } := by
  have hmap : (s.disk ++ [File.fresh c start s.proc.node]).map File.ident =
      s.disk.map File.ident ++ [(start, s.proc.node)] := by
    rw [List.map_append]
    rfl
  have hnode : s.proc.node ∈ s.used := h.node (by simp [hrun])
  refine ⟨ht, ⟨?_, ?_, ?_, ?_⟩, ?_, by simp [Pc.instant], by simp only [hrun]; trivial,
    fun _ => hnode⟩
  · rw [hmap, List.nodup_append_comm, List.singleton_append, List.nodup_cons]
    refine ⟨fun hmem => ?_, h.idents.nodup⟩
    exact absurd (h.idents.last _ hmem rfl) (Nat.not_le.2 hlast)
  · rw [hmap, List.forall_mem_append]
    exact ⟨h.idents.lt, by simpa using hlt⟩
  · rw [hmap, List.forall_mem_append]
    exact ⟨h.idents.used, by simpa using hnode⟩
  · rw [hmap, List.forall_mem_append]
    refine ⟨fun y hy hn => ?_, by simp [Proc.opened]⟩
    exact Nat.le_trans (h.idents.last y hy hn) hlast.le
  · intro f hf
    rcases List.mem_append.1 hf with hf | hf
    · exact h.kept f hf
    · rw [List.mem_singleton.1 hf]
      exact .of_part rfl rfl

theorem writes (h : Names s) (hf : Files s.proc s.disk) (hrun : s.phase = .running)
    (hfresh : ∀ start ∈ s.proc.pc.instant, start < limit) {a : WriterAct}
    (ht : Tidy { s with proc := p, disk := d }) (hs : Writes lim s.proc s.disk a p d) :
    Names { s with proc := p, disk := d } := by
  cases hs with
  | move moves =>
    refine h.ran hrun ht rfl h.kept rfl rfl fun start hstart => ?_
    rcases moves.opening start hstart with ⟨hlt, -⟩ | ⟨start', hstart', hle⟩
    · exact hlt
    · exact Nat.lt_of_lt_of_le (h.instant start' hstart') hle
  | lose plain hand => exact h.ran hrun ht rfl h.kept rfl rfl (by simp [Proc.lose, Pc.instant])
  | @create x now start left ok pc free =>
    have hinstant : start ∈ s.proc.pc.instant := by rw [pc]; rfl
    exact h.opened hrun ht (h.instant start hinstant) (hfresh start hinstant)
  | write pc active =>
    refine h.ran hrun ht (Disk.map_modify fun _ => rfl) ?_ rfl rfl ?_
    · exact h.kept_wrote active fun f => ⟨rfl, rfl, rfl⟩
    · dsimp only
      split <;> simp [Pc.instant]
  | fail pc active short =>
    exact h.ran hrun ht (Disk.map_modify fun _ => rfl)
      (h.kept_wrote active fun f => ⟨rfl, rfl, rfl⟩) rfl rfl (by simp [Pc.instant])
  | undo pc active =>
    exact h.ran hrun ht (Disk.map_modify fun _ => rfl)
      (h.kept_wrote active fun f => ⟨rfl, rfl, rfl⟩) rfl rfl (by simp [Pc.instant])
  | tear pc active =>
    exact h.ran hrun ht (Disk.map_modify fun _ => rfl)
      (h.kept_wrote active fun f => ⟨rfl, rfl, rfl⟩) rfl rfl (by simp [Pc.instant])
  | leave pc => exact h.ran hrun ht rfl h.kept rfl rfl (by simp [Next.instant_pc])
  | @remove next w sync close ok pc active empty =>
    obtain ⟨f, hget, hname, hpath⟩ := h.tidy.active w active
    obtain ⟨-, f', hget', hholds⟩ := hf.active w active
    obtain rfl : f = f' := Option.some.inj (hget.symm.trans hget')
    have hmem := List.mem_of_getElem? hget
    have hwritten : f.written = [] := by
      rw [pc] at hholds
      refine (hf.sound f hmem).written_eq_nil (List.eq_nil_of_length_eq_zero ?_)
      rw [hholds.2, empty]
    refine h.ran hrun ht (Disk.map_onName fun _ => rfl) ?_ rfl rfl (by simp [Next.instant_pc])
    rw [Disk.remove, hpath, Disk.onName_of_resolve (h.tidy.dir.resolve_eq hget hname)]
    exact Disk.forall_modify h.kept hget ((h.kept f hmem).unname (.inr hwritten))
  | @finish next w sync close ok pc active =>
    obtain ⟨f, hget, hname, hpath⟩ := h.tidy.active w active
    obtain ⟨-, f', hget', hholds⟩ := hf.active w active
    obtain rfl : f = f' := Option.some.inj (hget.symm.trans hget')
    have hmem := List.mem_of_getElem? hget
    rw [pc] at hholds
    refine h.ran hrun ht (Disk.map_rename fun _ _ _ => rfl) ?_ rfl rfl (by simp [Next.instant_pc])
    rw [hpath, h.tidy.dir.rename_eq hget hname]
    refine Disk.forall_modify h.kept hget ((h.kept f hmem).rename hname ?_)
    exact hholds.1.imp_right fun htorn => ⟨htorn, rfl⟩

theorem uploads (h : Names s) (hrun : s.phase = .running)
    (ht : Tidy { s with proc := p, disk := d }) (hs : Uploads s.proc s.disk p d) :
    Names { s with proc := p, disk := d } := by
  cases hs with
  | turn quiet => exact h.ran hrun ht rfl h.kept rfl rfl h.instant
  | «open» key lookup => exact h.ran hrun ht rfl h.kept rfl rfl h.instant
  | @send name id size todo up =>
    have hup := h.tidy.up
    rw [up] at hup
    obtain ⟨f, hf, hname, rfl, rfl⟩ := hup
    have hk := (h.kept f (List.mem_of_getElem? hf)).upload hname
    exact h.ran hrun ht (Disk.map_modify fun _ => rfl) (Disk.forall_modify h.kept hf hk) rfl rfl
      h.instant
  | @remove name size todo up =>
    have hup := h.tidy.up
    rw [up] at hup
    obtain ⟨i, f, hf, hname, rfl, hsent⟩ := hup
    have hk := (h.kept f (List.mem_of_getElem? hf)).unname (.inl hsent)
    refine h.ran hrun ht (Disk.map_onName fun _ => rfl) ?_ rfl rfl h.instant
    rw [Disk.remove, Disk.onName_of_resolve (h.tidy.dir.resolve_eq hf hname)]
    exact Disk.forall_modify h.kept hf hk

theorem recovers (h : Names s) (hf : Files s.proc s.disk) {ph : Phase}
    (ht : Tidy { s with phase := ph, proc := p, disk := d })
    (hs : Recovers s.proc s.disk s.phase ph p d) :
    Names { s with phase := ph, proc := p, disk := d } := by
  -- what a step of recovery has to show, for the process keeps its node and its last instant
  have hrec : s.phase ≠ .down → p.node = s.proc.node → p.lastStart = s.proc.lastStart →
      p.pc = s.proc.pc → d.map File.ident = s.disk.map File.ident → (∀ f ∈ d, f.Kept) →
      ph.Ok d → Names { s with phase := ph, proc := p, disk := d } := by
    intro hdown hnode hlast hpc hd hkept hok
    refine ⟨ht, h.idents.congr hd hnode hlast, hkept, ?_, hok, fun _ => hnode ▸ h.node hdown⟩
    rw [hpc, hlast]
    exact h.instant
  have hdir := h.tidy.dir
  have hok := h.phase
  generalize s.phase = ph₀ at hs hok hrec
  cases hs with
  | @skip name todo clean clean' n done =>
    refine hrec (by simp) rfl rfl rfl rfl h.kept fun hclean f hf hname => ?_
    obtain ⟨hclean, hpart⟩ := done hclean
    rcases List.mem_cons.1 (hok hclean f hf hname) with rfl | hmem
    · exact absurd (isPart_partName ..) hpart
    · exact hmem
  | @remove name todo clean i f part lookup none_complete =>
    obtain ⟨hres, hget, hname⟩ := Disk.resolve_of_lookup lookup
    have hmem := List.mem_of_getElem? hget
    have hwritten : f.written = [] := by
      rw [(hf.sound f hmem).keep_eq] at none_complete
      exact File.text_eq_nil.1 (List.eq_nil_of_length_eq_zero none_complete)
    refine hrec (by simp) rfl rfl rfl (Disk.map_onName fun _ => rfl) ?_ fun hclean f' hf' hname' => ?_
    · rw [Disk.remove, Disk.onName_of_resolve hres]
      exact Disk.forall_modify h.kept hget ((h.kept f hmem).unname (.inr hwritten))
    · rw [Disk.remove, Disk.onName_of_resolve hres] at hf'
      rcases Disk.get_of_mem_modify hf' with ⟨j, hij, hj⟩ | ⟨a, -, rfl⟩
      · rcases List.mem_cons.1 (hok hclean f' (List.mem_of_getElem? hj) hname') with heq | htodo
        · exact absurd (hdir.index_eq_of_name hget hj hname (heq ▸ hname')) hij
        · exact htodo
      · simp [File.unname] at hname'
  | @cut name todo clean i f part lookup some_complete =>
    obtain ⟨hres, hget, hname⟩ := Disk.resolve_of_lookup lookup
    have hmem := List.mem_of_getElem? hget
    have hsound := hf.sound f hmem
    obtain rfl : name = f.part := by
      refine ((h.kept f hmem).form name hname).resolve_right ?_
      rintro rfl
      exact not_isPart_readyName _ _ part
    have hup := (h.kept f hmem).uploaded_eq_none hname
    refine hrec (by simp) rfl rfl rfl (Disk.map_onName fun _ => rfl) ?_ ?_
    · rw [Disk.truncate, Disk.onName_of_resolve hres]
      exact Disk.forall_modify h.kept hget (.of_part hname hup)
    · rw [Disk.truncate, Disk.onName_of_resolve hres]
      refine ⟨⟨i, _, Disk.get_modify_self hget, hname, rfl, hsound.whole_cut hsound.keep_eq.symm⟩,
        fun hclean f' hf' hname' => ?_⟩
      rcases Disk.get_of_mem_modify hf' with ⟨j, -, hj⟩ | ⟨a, ha, rfl⟩
      · exact List.mem_cons.1 (hok hclean f' (List.mem_of_getElem? hj) hname')
      · exact List.mem_cons.1 (hok hclean a (List.mem_of_getElem? ha) hname')
  | @rename name keep todo clean n =>
    obtain ⟨⟨i, f, hget, hname, rfl, hwhole⟩, htodo⟩ := hok
    have hmem := List.mem_of_getElem? hget
    refine hrec (by simp) rfl rfl rfl (Disk.map_rename fun _ _ _ => rfl) ?_
      fun hclean f' hf' hname' => ?_
    · rw [hdir.rename_eq hget hname]
      exact Disk.forall_modify h.kept hget ((h.kept f hmem).rename hname (.inl hwhole))
    · rw [hdir.rename_eq hget hname] at hf'
      rcases Disk.get_of_mem_modify hf' with ⟨j, hij, hj⟩ | ⟨a, ha, rfl⟩
      · rcases htodo hclean f' (List.mem_of_getElem? hj) hname' with heq | htodo
        · exact absurd (hdir.index_eq_of_name hget hj hname (heq ▸ hname')) hij
        · exact htodo
      · obtain rfl : f = a := Option.some.inj (hget.symm.trans ha)
        exact absurd (Option.some.inj hname') File.ready_ne_part
  | fail => exact hrec (by simp) rfl rfl rfl rfl h.kept fun hclean => absurd hclean (by simp)
  | serve => exact hrec (by simp) rfl rfl rfl rfl h.kept trivial

theorem crashed (h : Names s) {n : Nat}
    (ht : Tidy ⟨.down, { Proc.init c s.proc.node s.disk.length with lastStart := s.proc.lastStart },
      leftover s.proc s.disk n, s.used⟩) :
    Names ⟨.down, { Proc.init c s.proc.node s.disk.length with lastStart := s.proc.lastStart },
      leftover s.proc s.disk n, s.used⟩ := by
  refine ⟨ht, h.idents.congr (map_leftover fun _ _ => rfl) rfl rfl, ?_,
    by simp [Proc.init, Pc.instant], trivial, fun hd => absurd rfl hd⟩
  show ∀ f ∈ leftover s.proc s.disk n, f.Kept
  unfold leftover
  split
  · rename_i x w _ hw
    exact h.kept_wrote hw fun f => ⟨rfl, rfl, rfl⟩
  · exact h.kept

theorem started (h : Names s) {node : NodeID} (hnode : node ∉ s.used)
    (ht : Tidy
      ⟨.recovering s.disk.listing true, .init c node s.disk.length, s.disk, node :: s.used⟩) :
    Names
      ⟨.recovering s.disk.listing true, .init c node s.disk.length, s.disk, node :: s.used⟩ := by
  refine ⟨ht, ⟨h.idents.nodup, h.idents.lt, fun x hx => ?_, fun x hx hn => ?_⟩, h.kept,
    by simp [Proc.init, Pc.instant], fun _ f hf hname => ?_, fun _ => List.mem_cons_self⟩
  · exact List.mem_cons_of_mem _ (h.idents.used x hx)
  · have hx2 : x.2 = node := hn
    exact absurd (hx2 ▸ h.idents.used x hx) hnode
  · exact Disk.mem_listing.2 ⟨f, hf, hname⟩

theorem step (h : Names s) (hinv : Inv s) {a : Act ε} (hg : Fresh s a)
    (hs : Spool.step lim s a = some t) : Names t := by
  have ht := h.tidy.step hs
  cases steps_of_step hs with
  | start down => exact h.started hg ht
  | crash up => exact h.crashed ht
  | @put e running =>
    have hput := s.proc.put_calls e
    exact h.ran running ht rfl h.kept hput.node hput.lastStart (hput.pc ▸ h.instant)
  | signal running stays => exact h.ran running ht rfl h.kept rfl rfl h.instant
  | recover recovers => exact h.recovers hinv.files ht recovers
  | writer running writes => exact h.writes hinv.files running hg ht writes
  | uploader running uploads => exact h.uploads running ht uploads

theorem of_reach (h : (lts c lim).Reach Fresh s) : Names s := by
  refine h.invariant ?_ fun s a t hr hn hg hs => hn.step (Inv.of_reach hr) hg hs
  have ht : Tidy (lts c lim).init := Tidy.of_reach (g := Fresh) .refl
  exact ⟨ht, ⟨.nil, by simp [lts], by simp [lts], by simp [lts]⟩, by simp [lts],
    by simp [lts, Proc.init, Pc.instant], trivial, fun hd => absurd rfl hd⟩

/-! ### What the names are worth -/

variable {i : Nat} {f : File c}

theorem complete_of_removed (h : Names s) (hsound : f.Sound) (hf : f ∈ s.disk)
    (hname : f.name = none) : f.uploaded = some f.bytes ∨ f.complete = [] := by
  refine ((h.kept f hf).gone hname).imp_right fun hwritten => ?_
  rw [hsound.complete_eq, hwritten]
  rfl

/-- After a recovery without an error no file is in progress. -/
theorem ready_of_recovered (h : Names s) (hph : s.phase = .recovering [] true) (hf : f ∈ s.disk)
    (hname : f.name ≠ none) : f.name = some f.ready := by
  obtain ⟨n, hn⟩ := Option.ne_none_iff_exists'.1 hname
  rcases (h.kept f hf).form n hn with rfl | rfl
  · have hphase := h.phase
    rw [hph] at hphase
    exact absurd (hphase rfl f hf hn) List.not_mem_nil
  · exact hn

/-- Each file has a key, and no other file has it. -/
theorem exists_key (h : Names s) (hf : s.disk[i]? = some f) :
    ∃ k, spoolKey f.ready = some k ∧
      ∀ (j : Nat) (g : File c), s.disk[j]? = some g → spoolKey g.ready = some k → j = i := by
  have hlt := h.idents.start_lt (List.mem_of_getElem? hf)
  obtain ⟨k, hk⟩ := exists_spoolKey hlt f.node
  refine ⟨k, hk, fun j g hj hg => ?_⟩
  have hlt' := h.idents.start_lt (List.mem_of_getElem? hj)
  obtain ⟨hstart, hnode⟩ := readyName_inj hlt' hlt (spoolKey_inj hg hk)
  exact h.idents.index_eq hj hf (Prod.ext hstart hnode)

end Names

/-! ## Lines stay -/

/-- Every file is still the same one, with at least the lines it had. -/
def Grows (d d' : Disk c) : Prop :=
  ∀ (i : Nat) (f : File c), d[i]? = some f →
    ∃ f', d'[i]? = some f' ∧ f'.ident = f.ident ∧ f.written <+: f'.written

namespace Grows

variable {d' d'' : Disk c}

theorem refl (d : Disk c) : Grows d d := fun _ f hf => ⟨f, hf, rfl, List.prefix_rfl⟩

theorem trans (h : Grows d d') (h' : Grows d' d'') : Grows d d'' := by
  intro i f hf
  obtain ⟨f', hf', hident, hpre⟩ := h i f hf
  obtain ⟨f'', hf'', hident', hpre'⟩ := h' i f' hf'
  exact ⟨f'', hf'', hident'.trans hident, hpre.trans hpre'⟩

/-- Nothing has been written. -/
theorem of_map_eq (hident : d'.map File.ident = d.map File.ident)
    (hwritten : d'.map File.written = d.map File.written) : Grows d d' := by
  intro i f hf
  have hi := congrArg (·[i]?) hident
  have hw := congrArg (·[i]?) hwritten
  simp only [List.getElem?_map, hf, Option.map_some] at hi hw
  obtain ⟨f', hf', hident⟩ := Option.map_eq_some_iff.1 hi
  refine ⟨f', hf', hident, ?_⟩
  rw [hf', Option.map_some, Option.some_inj] at hw
  exact hw ▸ List.prefix_rfl

theorem append (d : Disk c) (i : Nat) (x : Entry c) (n : Nat) :
    Grows d (d.modify i (File.append x n)) := by
  intro j f hf
  by_cases hij : i = j
  · subst hij
    refine ⟨_, Disk.get_modify_self hf, rfl, ?_⟩
    unfold File.append
    dsimp only
    split
    · exact List.prefix_rfl
    · exact List.prefix_append ..
  · exact ⟨f, (Disk.get_modify_of_ne hij).trans hf, rfl, List.prefix_rfl⟩

theorem concat (d : Disk c) (f : File c) : Grows d (d ++ [f]) := by
  intro i f' hf'
  refine ⟨f', ?_, rfl, List.prefix_rfl⟩
  rwa [List.getElem?_append_left (List.getElem?_eq_some_iff.1 hf').1]

variable {p' : Proc c}

theorem writes {a : WriterAct} (hs : Writes lim p d a p' d') : Grows d d' := by
  cases hs with
  | move => exact refl d
  | lose => exact refl d
  | create => exact concat d _
  | write => exact append d _ _ _
  | fail => exact append d _ _ _
  | undo => exact of_map_eq (Disk.map_modify fun _ => rfl) (Disk.map_modify fun _ => rfl)
  | tear => exact of_map_eq (Disk.map_modify fun _ => rfl) (Disk.map_modify fun _ => rfl)
  | leave => exact refl d
  | remove => exact of_map_eq (Disk.map_onName fun _ => rfl) (Disk.map_onName fun _ => rfl)
  | finish => exact of_map_eq (Disk.map_rename fun _ _ _ => rfl) (Disk.map_rename fun _ _ _ => rfl)

theorem uploads (hs : Uploads p d p' d') : Grows d d' := by
  cases hs with
  | turn => exact refl d
  | «open» => exact refl d
  | send => exact of_map_eq (Disk.map_modify fun _ => rfl) (Disk.map_modify fun _ => rfl)
  | remove => exact of_map_eq (Disk.map_onName fun _ => rfl) (Disk.map_onName fun _ => rfl)

theorem recovers {ph ph' : Phase} (hs : Recovers p d ph ph' p' d') : Grows d d' := by
  cases hs with
  | skip => exact refl d
  | remove => exact of_map_eq (Disk.map_onName fun _ => rfl) (Disk.map_onName fun _ => rfl)
  | cut => exact of_map_eq (Disk.map_onName fun _ => rfl) (Disk.map_onName fun _ => rfl)
  | rename => exact of_map_eq (Disk.map_rename fun _ _ _ => rfl) (Disk.map_rename fun _ _ _ => rfl)
  | fail => exact refl d
  | serve => exact refl d

theorem leftover (p : Proc c) (d : Disk c) (n : Nat) : Grows d (leftover p d n) := by
  unfold Spool.leftover
  split
  · exact append d _ _ n
  · exact refl d

theorem step {s t : State c} {a : Act ε} (hs : Spool.step lim s a = some t) :
    Grows s.disk t.disk := by
  cases steps_of_step hs with
  | start => exact refl _
  | crash => exact leftover _ _ _
  | put => exact refl _
  | signal => exact refl _
  | recover hr => exact recovers hr
  | writer _ hw => exact writes hw
  | uploader _ hu => exact uploads hu

theorem of_later {g : State c → Act ε → Prop} {s t : State c} (h : (lts c lim).Later g s t) :
    Grows s.disk t.disk :=
  h.stable (P := fun t => Grows s.disk t.disk) (fun _ _ _ hp _ hs => hp.trans (step hs)) (refl _)

theorem complete (h : Grows d d') (hd : ∀ f ∈ d, f.Sound) (hd' : ∀ f ∈ d', f.Sound) {i : Nat}
    {f : File c} (hf : d[i]? = some f) :
    ∃ f', d'[i]? = some f' ∧ f.complete <+: f'.complete := by
  obtain ⟨f', hf', -, hpre⟩ := h i f hf
  refine ⟨f', hf', ?_⟩
  rw [(hd f (List.mem_of_getElem? hf)).complete_eq, (hd' f' (List.mem_of_getElem? hf')).complete_eq]
  exact hpre.map _

end Grows

/-- **Log files survive crashes.**  Whatever has happened between `s` and `t`: no complete line of a
file is lost; when recovery has gone through the directory without an error, a file that has one
and was not uploaded is ready, under a name of its own; a ready file that was recovered ends with a
complete line; a file with a complete line is only removed once all of it has been uploaded; each
file has a key and no two the same; and what a file is to be renamed to is the name of no file. -/
theorem logs_survive {s t : State c} (hs : (lts c lim).Reach Fresh s)
    (hl : (lts c lim).Later Fresh s t) :
    (∀ (i : Nat) (f : File c), s.disk[i]? = some f →
      ∃ f', t.disk[i]? = some f' ∧ f.complete <+: f'.complete) ∧
    (t.phase = .recovering [] true →
      ∀ (i : Nat) (f : File c), t.disk[i]? = some f → f.uploaded = none → f.complete ≠ [] →
        f.name = some f.ready ∧
        ∀ (j : Nat) (g : File c), t.disk[j]? = some g → g.name = some f.ready → j = i) ∧
    (∀ f ∈ t.disk, f.name = some f.ready → f.finished = false → f.rest = []) ∧
    (∀ f ∈ t.disk, f.name = none → f.uploaded = some f.bytes ∨ f.complete = []) ∧
    (∀ (i : Nat) (f : File c), t.disk[i]? = some f → ∃ k, spoolKey f.ready = some k ∧
      ∀ (j : Nat) (g : File c), t.disk[j]? = some g → spoolKey g.ready = some k → j = i) ∧
    (∀ w ∈ t.proc.active, ∀ f ∈ t.disk, f.name ≠ some (trimPart w.path)) ∧
    ∀ name keep todo clean, t.phase = .renaming name keep todo clean →
      ∀ f ∈ t.disk, f.name ≠ some (trimPart name) := by
  have ht := hs.later hl
  have hsound := (Inv.of_reach ht).files.sound
  have hn := Names.of_reach ht
  have hdir := hn.tidy.dir
  -- what a file in progress is to be renamed to is the name of no file
  have hfree : ∀ {i : Nat} {f : File c}, t.disk[i]? = some f → f.name = some f.part →
      ∀ g ∈ t.disk, g.name ≠ some (trimPart f.part) := by
    intro i f hf hname
    rw [File.trimPart_part]
    exact Disk.resolve_eq_none.1 (hdir.resolve_ready hf hname)
  refine ⟨fun i f hf => (Grows.of_later hl).complete (Inv.of_reach hs).files.sound hsound hf,
    fun hph i f hf hup hlines => ?_, fun f hf hname hfin => ?_,
    fun f hf => hn.complete_of_removed (hsound f hf) hf, fun i f hf => hn.exists_key hf,
    fun w hw => ?_, fun name keep todo clean hph => ?_⟩
  · have hmem := List.mem_of_getElem? hf
    have hname : f.name ≠ none := by
      intro hnone
      rcases hn.complete_of_removed (hsound f hmem) hmem hnone with hup' | hlines'
      · simp [hup] at hup'
      · exact hlines hlines'
    refine ⟨hn.ready_of_recovered hph hmem hname, fun j g hj hg => ?_⟩
    exact hdir.index_eq hj hf hname (.inr hg)
  · rcases (hn.kept f hf).whole hname with hwhole | ⟨-, hfin'⟩
    · exact hwhole.rest_eq_nil
    · simp [hfin] at hfin'
  · obtain ⟨f, hf, hname, hpath⟩ := hn.tidy.active w hw
    rw [hpath]
    exact hfree hf hname
  · have hphase := hn.phase
    rw [hph] at hphase
    obtain ⟨⟨i, f, hf, hname, rfl, -⟩, -⟩ := hphase
    exact hfree hf hname

def NodeID.one : NodeID := ⟨['1'], by simp, by simp [isHex]⟩

/-- A process is gone in the middle of its second line, and the next one recovers the first. -/
theorem logs_survive_second_line :
    ∃ s t, (lts flagCodec smallLimits).Reach Fresh s ∧ (lts flagCodec smallLimits).Later Fresh s t ∧
      (∃ f, s.disk[0]? = some f ∧ f.name = some f.part ∧ f.bytes = [123, 125, 10, 123]) ∧
      t.phase = .recovering [] true ∧
      ∃ f, t.disk[0]? = some f ∧ f.complete = [[123, 125]] ∧ f.name = some f.ready := by
  obtain ⟨s, hr, hcut, hrun⟩ := Lts.exists_reach_of_any
    (L := lts flagCodec smallLimits) (g := Fresh)
    (l := [.start .zero, .recover .serve, .put true, .put true, .writer .take, .writer .check,
      .writer (.clock 5), .writer .cap, .writer (.lstat true), .writer (.create true),
      .writer (.write none), .writer .take, .writer .check, .writer (.clock 2), .writer .cap,
      .crash 1])
    (P := fun s => (∃ f ∈ s.disk[0]?, f.name = some f.part ∧ f.bytes = [123, 125, 10, 123]) ∧
      ((lts flagCodec smallLimits).execWith Fresh s
        [.start .one, .recover (.entry true), .recover (.rename true)]).any (fun t =>
          t.phase = .recovering [] true ∧
            ∃ f ∈ t.disk[0]?, f.uploaded = none ∧ f.complete = [[123, 125]]) = true)
    (by decide +kernel)
  obtain ⟨t, hl, hph, f, hf, hup, hcomplete⟩ := Lts.exists_later_of_any hrun
  obtain ⟨hname, -⟩ := (logs_survive hr hl).2.1 hph 0 f hf hup (by simp [hcomplete])
  exact ⟨s, t, hr, hl, hcut, hph, f, hf, hcomplete, hname⟩

/-- A process is gone in the middle of its first line.  The next one deletes the file, which was not
empty and was never uploaded. -/
theorem first_line_deleted :
    ∃ s, (lts flagCodec smallLimits).Reach Fresh s ∧
      ∃ f ∈ s.disk, f.name = none ∧ f.bytes ≠ [] ∧ f.uploaded = none := by
  exact Lts.exists_reach_of_any (L := lts flagCodec smallLimits) (g := Fresh)
    (l := [.start .zero, .recover .serve, .put true, .writer .take, .writer .check,
      .writer (.clock 5), .writer .cap, .writer (.lstat true), .writer (.create true), .crash 1,
      .start .one, .recover (.entry true)])
    (P := fun s => ∃ f ∈ s.disk, f.name = none ∧ f.bytes ≠ [] ∧ f.uploaded = none)
    (by decide +kernel)

end Tunneld.Spool

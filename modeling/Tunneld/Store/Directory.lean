import Tunneld.Store.Spool

/-!
# The names in the spool directory

Everything but the writer's own handle goes by name, so the code depends on the names being in
order.  It asks before it takes one: a file is created only where neither of the two names that it
will have is in the directory, and from then on nobody else makes a name of that instant and node.
So, whatever the clock says and whichever nodes the processes have:

* `Dir`: each file has one of its own two names, and no other file in the directory has either;
* `Tidy`: the writer works on the file whose name it has, the uploader on a file that is ready and
  of the size it read, and recovery on the file it has cut.

An operation by name is then one on a single file (`Dir.resolve_eq`), and marking a file as ready
replaces nothing (`Dir.rename_eq`).
-/

universe u

namespace Tunneld.Spool

variable {ε : Type u} {c : Codec ε} {lim : Limits} {p : Proc c} {d : Disk c}

namespace File

/-- What makes a file's name and key. -/
def ident (f : File c) : Nat × NodeID := (f.start, f.node)

/-- The name while it is written. -/
def part (f : File c) : Text := partName f.start f.node

/-- The name when it is ready. -/
def ready (f : File c) : Text := readyName f.start f.node

variable {f g : File c}

theorem ready_ne_part : f.ready ≠ g.part := readyName_ne_partName

theorem trimPart_part : trimPart f.part = f.ready := trimPart_partName ..

theorem names_of_ident (h : g.ident = f.ident) : g.part = f.part ∧ g.ready = f.ready := by
  obtain ⟨hstart, hnode⟩ := Prod.mk.inj h
  rw [part, part, ready, ready, hstart, hnode]
  exact ⟨rfl, rfl⟩

end File

theorem Disk.resolve_eq_none {n : Text} : d.resolve n = none ↔ ∀ f ∈ d, f.name ≠ some n := by
  simp [Disk.resolve, List.findIdx?_eq_none_iff]

/-- No file gets a name. -/
theorem Disk.resolve_modify_eq_none {n : Text} {i : Nat} {g : File c → File c}
    (h : d.resolve n = none) (hg : ∀ f, (g f).name = f.name ∨ (g f).name = none) :
    Disk.resolve (d.modify i g) n = none := by
  rw [Disk.resolve_eq_none] at h ⊢
  intro f hf
  rcases Disk.get_of_mem_modify hf with ⟨j, -, hj⟩ | ⟨a, ha, rfl⟩
  · exact h f (List.mem_of_getElem? hj)
  · rcases hg a with hname | hname
    · rw [hname]
      exact h a (List.mem_of_getElem? ha)
    · simp [hname]

/-- Each file in the directory has one of its own names, and shares neither. -/
structure Dir (d : Disk c) : Prop where
  form : ∀ f ∈ d, ∀ n ∈ f.name, n = f.part ∨ n = f.ready
  apart : ∀ {i j : Nat} {f g : File c}, d[i]? = some f → d[j]? = some g → f.name ≠ none →
    g.name ≠ none → f.part = g.part → i = j

namespace Dir

variable {i j : Nat} {f g : File c} {n : Text}

theorem index_eq (h : Dir d) (hf : d[i]? = some f) (hg : d[j]? = some g) (hne : g.name ≠ none)
    (hname : f.name = some g.part ∨ f.name = some g.ready) : i = j := by
  have hform := h.form f (List.mem_of_getElem? hf)
  rcases hname with hname | hname
  · refine h.apart hf hg (by simp [hname]) hne ?_
    exact ((hform _ hname).resolve_right (Ne.symm File.ready_ne_part)).symm
  · refine h.apart hf hg (by simp [hname]) hne (partName_eq_iff.2 ?_)
    exact ((hform _ hname).resolve_left File.ready_ne_part).symm

theorem index_eq_of_name (h : Dir d) (hf : d[i]? = some f) (hg : d[j]? = some g)
    (hfn : f.name = some n) (hgn : g.name = some n) : i = j := by
  refine h.index_eq hf hg (by simp [hgn]) ?_
  rcases h.form g (List.mem_of_getElem? hg) n hgn with rfl | rfl
  · exact .inl hfn
  · exact .inr hfn

theorem resolve_eq (h : Dir d) (hf : d[i]? = some f) (hname : f.name = some n) :
    d.resolve n = some i := by
  cases hres : d.resolve n with
  | none => exact absurd hname (Disk.resolve_eq_none.1 hres f (List.mem_of_getElem? hf))
  | some j =>
    obtain ⟨g, hg, hgname⟩ := Disk.get_of_resolve hres
    rw [h.index_eq_of_name hg hf hgname hname]

/-- While a file is written, nothing has the name that it will have when it is ready. -/
theorem resolve_ready (h : Dir d) (hf : d[i]? = some f) (hname : f.name = some f.part) :
    d.resolve f.ready = none := by
  refine Disk.resolve_eq_none.2 fun g hg hgname => ?_
  obtain ⟨j, hj⟩ := List.mem_iff_getElem?.1 hg
  obtain rfl := h.index_eq hj hf (by simp [hname]) (.inr hgname)
  obtain rfl : f = g := Option.some.inj (hf.symm.trans hj)
  exact File.ready_ne_part (Option.some.inj (hgname.symm.trans hname))

/-- Marking a file as ready changes its name and nothing else in the directory. -/
theorem rename_eq (h : Dir d) (hf : d[i]? = some f) (hname : f.name = some f.part)
    (writer : Bool) :
    d.rename f.part (trimPart f.part) writer = d.modify i (File.rename f.ready writer) := by
  rw [File.trimPart_part, Disk.rename, if_neg (Ne.symm File.ready_ne_part)]
  have hready : d.onName f.ready File.unname = d := by
    rw [Disk.onName, h.resolve_ready hf hname]
  rw [hready, Disk.onName_of_resolve (h.resolve_eq hf hname)]

theorem modify (h : Dir d) (hf : d[i]? = some f) {op : File c → File c}
    (hident : (op f).ident = f.ident) (hform : ∀ n ∈ (op f).name, n = f.part ∨ n = f.ready)
    (hname : (op f).name ≠ none → f.name ≠ none) : Dir (d.modify i op) := by
  obtain ⟨hpart, hready⟩ := File.names_of_ident hident
  refine ⟨Disk.forall_modify h.form hf ?_, fun {j k a b} ha hb han hbn hab => ?_⟩
  · rw [hpart, hready]
    exact hform
  -- a file of the new disk, as it was before
  have hold : ∀ {j : Nat} {a : File c}, (d.modify i op)[j]? = some a → a.name ≠ none →
      ∃ a', d[j]? = some a' ∧ a'.name ≠ none ∧ a'.part = a.part := by
    intro j a ha han
    by_cases hij : i = j
    · subst hij
      rw [Disk.get_modify_self hf] at ha
      obtain rfl := Option.some.inj ha
      exact ⟨f, hf, hname han, hpart.symm⟩
    · rw [Disk.get_modify_of_ne hij] at ha
      exact ⟨a, ha, han, rfl⟩
  obtain ⟨a', ha', han', hpa⟩ := hold ha han
  obtain ⟨b', hb', hbn', hpb⟩ := hold hb hbn
  exact h.apart ha' hb' han' hbn' (hpa.trans (hab.trans hpb.symm))

/-- A file is created where neither of its names is taken. -/
theorem concat (h : Dir d) {start : Nat} {node : NodeID}
    (hpart : d.resolve (partName start node) = none)
    (hready : d.resolve (readyName start node) = none) :
    Dir (d ++ [.fresh c start node]) := by
  have hnew : ∀ f ∈ d, f.name ≠ none → f.part ≠ partName start node := by
    intro f hf hne heq
    obtain ⟨n, hn⟩ := Option.ne_none_iff_exists'.1 hne
    rcases h.form f hf n hn with rfl | rfl
    · exact Disk.resolve_eq_none.1 hpart f hf (heq ▸ hn)
    · exact Disk.resolve_eq_none.1 hready f hf (partName_eq_iff.1 heq ▸ hn)
  have hcases : ∀ {i : Nat} {f : File c}, (d ++ [File.fresh c start node])[i]? = some f →
      d[i]? = some f ∨ i = d.length ∧ f = .fresh c start node := by
    intro i f hf
    rw [List.getElem?_append] at hf
    split at hf
    · exact .inl hf
    · rw [List.getElem?_singleton] at hf
      obtain ⟨hi, hf⟩ := Option.ite_none_right_eq_some.1 hf
      exact .inr ⟨by omega, (Option.some.inj hf).symm⟩
  refine ⟨fun f hf => ?_, fun {i j f g} hf hg hfn hgn hfg => ?_⟩
  · rcases List.mem_append.1 hf with hf | hf
    · exact h.form f hf
    · rw [List.mem_singleton.1 hf]
      rintro n ⟨⟩
      exact .inl rfl
  · rcases hcases hf with hf | ⟨hi, rfl⟩ <;> rcases hcases hg with hg | ⟨hj, rfl⟩
    · exact h.apart hf hg hfn hgn hfg
    · exact absurd hfg (hnew f (List.mem_of_getElem? hf) hfn)
    · exact absurd hfg.symm (hnew g (List.mem_of_getElem? hg) hgn)
    · rw [hi, hj]

end Dir

/-! ## Who works on which file -/

/-- The writer works on a file that has the first of its names. -/
def Named (p : Proc c) (d : Disk c) : Prop :=
  ∀ w ∈ p.active, ∃ f, d[w.id]? = some f ∧ f.name = some f.part ∧ w.path = f.part

/-- The uploader works on a file that is ready, and removes it when all of it has been sent. -/
def Up.Fits (up : Up) (d : Disk c) : Prop :=
  match up with
  | .sending name id size _ =>
    ∃ f, d[id]? = some f ∧ f.name = some f.ready ∧ name = f.ready ∧ size = f.bytes.length
  | .removing name _ _ =>
    ∃ (i : Nat) (f : File c), d[i]? = some f ∧ f.name = some f.ready ∧ name = f.ready ∧
      f.uploaded = some f.bytes
  | _ => True

/-- Recovery is going to rename the file that it has cut. -/
def Phase.Fits (ph : Phase) (d : Disk c) : Prop :=
  match ph with
  | .renaming name _ _ _ =>
    ∃ (i : Nat) (f : File c), d[i]? = some f ∧ f.name = some f.part ∧ name = f.part
  | _ => True

theorem Up.Quiet.fits {up : Up} (h : up.Quiet) : up.Fits d := by
  cases up with
  | sending name id size todo => exact h.elim
  | removing name size todo => exact h.elim
  | _ => trivial

theorem Up.Fits.get_congr {up : Up} (h : up.Fits d) {d' : Disk c}
    (hget : ∀ (j : Nat) (f : File c), d[j]? = some f → f.name = some f.ready →
      d'[j]? = some f) : up.Fits d' := by
  cases up with
  | sending name id size todo =>
    obtain ⟨f, hf, hready, hrest⟩ := h
    exact ⟨f, hget _ _ hf hready, hready, hrest⟩
  | removing name size todo =>
    obtain ⟨j, f, hf, hready, hrest⟩ := h
    exact ⟨j, f, hget _ _ hf hready, hready, hrest⟩
  | _ => trivial

section

variable {i : Nat} {f : File c} {g : File c → File c}

/-- The uploader's file is not one that is written. -/
theorem Up.Fits.modify {up : Up} (h : up.Fits d) (hf : d[i]? = some f)
    (hname : f.name = some f.part) : up.Fits (d.modify i g) := by
  refine h.get_congr fun j f' hf' hready => ?_
  rwa [Disk.get_modify_of_ne]
  rintro rfl
  obtain rfl : f = f' := Option.some.inj (hf.symm.trans hf')
  exact File.ready_ne_part (Option.some.inj (hready.symm.trans hname))

/-- The writer's file is not one that is ready. -/
theorem Named.modify (h : Named p d) (hf : d[i]? = some f) (hname : f.name = some f.ready) :
    Named p (d.modify i g) := by
  intro w hw
  obtain ⟨f', hf', hpart, hpath⟩ := h w hw
  refine ⟨f', ?_, hpart, hpath⟩
  rwa [Disk.get_modify_of_ne]
  rintro rfl
  obtain rfl : f = f' := Option.some.inj (hf.symm.trans hf')
  exact File.ready_ne_part (Option.some.inj (hname.symm.trans hpart))

end

/-! ## The whole run -/

structure Tidy (s : State c) : Prop where
  dir : Dir s.disk
  creating : ∀ start ∈ s.proc.pc.creating, s.disk.resolve (readyName start s.proc.node) = none
  active : Named s.proc s.disk
  up : s.proc.up.Fits s.disk
  phase : s.phase.Fits s.disk
  idle : s.phase ≠ .running → s.proc.pc = .select ∧ s.proc.active = none ∧ s.proc.up = .idle

namespace Tidy

variable {s t : State c}

theorem proc (h : Tidy s) (hrun : s.phase = .running) {p' : Proc c}
    (hact : p'.active = s.proc.active)
    (hcreating : ∀ start ∈ p'.pc.creating, s.disk.resolve (readyName start p'.node) = none)
    (hup : p'.up.Fits s.disk) : Tidy { s with proc := p' } := by
  refine ⟨h.dir, hcreating, ?_, hup, h.phase, fun hr => absurd hrun hr⟩
  rw [Named, hact]
  exact h.active

theorem wrote (h : Tidy s) (hrun : s.phase = .running) {w w' : Active} {p' : Proc c}
    {g : File c → File c} (hw : s.proc.active = some w) (hw' : p'.active = some w')
    (hid : w'.id = w.id) (hpath : w'.path = w.path) (hcreating : p'.pc.creating = none)
    (hup : p'.up = s.proc.up) (hg : ∀ f, (g f).ident = f.ident ∧ (g f).name = f.name) :
    Tidy { s with proc := p', disk := s.disk.modify w.id g } := by
  obtain ⟨f, hf, hname, hwpath⟩ := h.active w hw
  obtain ⟨hident, hsame⟩ := hg f
  obtain ⟨hpart, -⟩ := File.names_of_ident hident
  refine ⟨h.dir.modify hf hident ?_ (by simp [hsame]), by simp [hcreating], ?_, ?_,
    by simp only [hrun]; trivial, fun hr => absurd hrun hr⟩
  · rw [hsame]
    exact h.dir.form f (List.mem_of_getElem? hf)
  · intro v hv
    rw [hw', Option.mem_some_iff] at hv
    obtain rfl := hv
    rw [hid, hpath]
    exact ⟨g f, Disk.get_modify_self hf, by rw [hsame, hname, hpart], hwpath.trans hpart.symm⟩
  · rw [hup]
    exact h.up.modify hf hname

theorem rotated (hrun : s.phase = .running) {next : Next c} {d' : Disk c}
    (hdir : Dir d') (hup : s.proc.up.Fits d') :
    Tidy { s with proc := { s.proc with active := none, pc := next.pc }, disk := d' } := by
  refine ⟨hdir, ?_, by simp [Named], hup, by simp only [hrun]; trivial, fun hr => absurd hrun hr⟩
  rw [next.creating_pc]
  simp

theorem writes (h : Tidy s) (hrun : s.phase = .running) {a : WriterAct}
    (hs : Writes lim s.proc s.disk a p d) : Tidy { s with proc := p, disk := d } := by
  cases hs with
  | move moves => exact h.proc hrun rfl moves.ready h.up
  | lose plain hand => exact h.proc hrun rfl (by simp [Proc.lose, Pc.creating]) h.up
  | @create x now start left ok pc free =>
    have hstart : start ∈ s.proc.pc.creating := by rw [pc]; rfl
    have hdir := h.dir.concat free (h.creating start hstart)
    refine ⟨hdir, by simp [Pc.creating], ?_, ?_, by simp only [hrun]; trivial,
      fun hr => absurd hrun hr⟩
    · rintro w ⟨⟩
      exact ⟨.fresh c start s.proc.node, by simp, rfl, rfl⟩
    · refine h.up.get_congr fun j f hf _ => ?_
      rwa [List.getElem?_append_left (List.getElem?_eq_some_iff.1 hf).1]
  | write pc active =>
    refine h.wrote hrun active rfl rfl rfl ?_ rfl fun f => ⟨rfl, rfl⟩
    dsimp only
    split <;> rfl
  | fail pc active short => exact h.wrote hrun active active rfl rfl rfl rfl fun f => ⟨rfl, rfl⟩
  | undo pc active => exact h.wrote hrun active active rfl rfl rfl rfl fun f => ⟨rfl, rfl⟩
  | tear pc active => exact h.wrote hrun active rfl rfl rfl rfl rfl fun f => ⟨rfl, rfl⟩
  | leave pc => exact rotated hrun h.dir h.up
  | @remove next w sync close ok pc active empty =>
    obtain ⟨f, hf, hname, hpath⟩ := h.active w active
    rw [Disk.remove, hpath, Disk.onName_of_resolve (h.dir.resolve_eq hf hname)]
    refine rotated hrun (h.dir.modify hf rfl ?_ ?_) (h.up.modify hf hname)
    · simp [File.unname]
    · simp [File.unname]
  | @finish next w sync close ok pc active =>
    obtain ⟨f, hf, hname, hpath⟩ := h.active w active
    rw [hpath, h.dir.rename_eq hf hname]
    refine rotated hrun (h.dir.modify hf rfl ?_ (by simp [hname])) (h.up.modify hf hname)
    rintro n ⟨⟩
    exact .inr rfl

theorem sent (h : Tidy s) (hrun : s.phase = .running) {i : Nat} {f : File c} {g : File c → File c}
    {up : Up} (hf : s.disk[i]? = some f) (hname : f.name = some f.ready)
    (hg : ∀ f, (g f).ident = f.ident ∧ ((g f).name = f.name ∨ (g f).name = none))
    (hup : up.Fits (s.disk.modify i g)) :
    Tidy { s with proc := { s.proc with up := up }, disk := s.disk.modify i g } := by
  refine ⟨h.dir.modify hf (hg f).1 ?_ (by simp [hname]), fun start hstart => ?_,
    h.active.modify hf hname, hup, by simp only [hrun]; trivial, fun hr => absurd hrun hr⟩
  · intro n hn
    rcases (hg f).2 with heq | heq
    · exact h.dir.form f (List.mem_of_getElem? hf) n (heq ▸ hn)
    · simp [heq] at hn
  · exact Disk.resolve_modify_eq_none (h.creating start hstart) fun f => (hg f).2

theorem uploads (h : Tidy s) (hrun : s.phase = .running) (hs : Uploads s.proc s.disk p d) :
    Tidy { s with proc := p, disk := d } := by
  cases hs with
  | turn quiet => exact h.proc hrun rfl h.creating quiet.fits
  | @«open» name key id f todo key lookup =>
    obtain ⟨-, hf, hname⟩ := Disk.resolve_of_lookup lookup
    refine h.proc hrun rfl h.creating ?_
    rcases h.dir.form f (List.mem_of_getElem? hf) name hname with rfl | rfl
    · exact absurd key (by simp [File.part, spoolKey_partName])
    · exact ⟨f, hf, hname, rfl, rfl⟩
  | @send name id size todo up =>
    have hup := h.up
    rw [up] at hup
    obtain ⟨f, hf, hname, rfl, rfl⟩ := hup
    refine h.sent hrun hf hname (fun _ => ⟨rfl, .inl rfl⟩)
      ⟨id, _, Disk.get_modify_self hf, hname, rfl, ?_⟩
    exact congrArg some (List.take_length ..)
  | @remove name size todo up =>
    have hup := h.up
    rw [up] at hup
    obtain ⟨i, f, hf, hname, rfl, -⟩ := hup
    rw [Disk.remove, Disk.onName_of_resolve (h.dir.resolve_eq hf hname)]
    exact h.sent hrun hf hname (fun _ => ⟨rfl, .inr rfl⟩) trivial

theorem recovered (h : Tidy s) (hph : s.phase ≠ .running) {ph : Phase} {d : Disk c} {n : Int}
    (hdir : Dir d) (hfits : ph.Fits d) :
    Tidy { s with phase := ph, proc := { s.proc with spooled := n }, disk := d } := by
  obtain ⟨hpc, hact, hup⟩ := h.idle hph
  refine ⟨hdir, by simp [hpc, Pc.creating], by simp [Named, hact], ?_, hfits,
    fun _ => ⟨hpc, hact, hup⟩⟩
  show s.proc.up.Fits d
  rw [hup]
  trivial

theorem recovers (h : Tidy s) {ph : Phase} (hs : Recovers s.proc s.disk s.phase ph p d) :
    Tidy { s with phase := ph, proc := p, disk := d } := by
  have hfits := h.phase
  have hrec := h.recovered
  generalize s.phase = ph₀ at hs hfits hrec
  cases hs with
  | skip done => exact hrec (by simp) h.dir trivial
  | @remove name todo clean i f part lookup none_complete =>
    obtain ⟨hres, hf, hname⟩ := Disk.resolve_of_lookup lookup
    rw [Disk.remove, Disk.onName_of_resolve hres]
    refine hrec (by simp) (h.dir.modify hf rfl ?_ ?_) trivial
    · simp [File.unname]
    · simp [File.unname]
  | @cut name todo clean i f part lookup some_complete =>
    obtain ⟨hres, hf, hname⟩ := Disk.resolve_of_lookup lookup
    obtain rfl : name = f.part := by
      refine (h.dir.form f (List.mem_of_getElem? hf) name hname).resolve_right ?_
      rintro rfl
      exact not_isPart_readyName _ _ part
    rw [Disk.truncate, Disk.onName_of_resolve hres]
    exact hrec (by simp) (h.dir.modify hf rfl (h.dir.form f (List.mem_of_getElem? hf)) id)
      ⟨i, _, Disk.get_modify_self hf, hname, rfl⟩
  | @rename name keep todo clean n =>
    obtain ⟨i, f, hf, hname, rfl⟩ := hfits
    rw [h.dir.rename_eq hf hname]
    refine hrec (by simp) (h.dir.modify hf rfl ?_ (by simp [hname])) trivial
    rintro n ⟨⟩
    exact .inr rfl
  | fail => exact hrec (by simp) h.dir trivial
  | serve => exact hrec (by simp) h.dir trivial

theorem crashed (h : Tidy s) (n : Nat) :
    Tidy ⟨.down, { Proc.init c s.proc.node s.disk.length with lastStart := s.proc.lastStart },
      leftover s.proc s.disk n, s.used⟩ := by
  refine ⟨?_, by simp [Proc.init, Pc.creating], by simp [Named, Proc.init], trivial, trivial,
    fun _ => ⟨rfl, rfl, rfl⟩⟩
  show Dir (leftover s.proc s.disk n)
  unfold leftover
  split
  · rename_i x w _ hw
    obtain ⟨f, hf, -⟩ := h.active w hw
    exact h.dir.modify hf rfl (h.dir.form f (List.mem_of_getElem? hf)) id
  · exact h.dir

theorem step (h : Tidy s) {a : Act ε} (hs : Spool.step lim s a = some t) : Tidy t := by
  cases steps_of_step hs with
  | start down =>
    exact ⟨h.dir, by simp [Proc.init, Pc.creating], by simp [Named, Proc.init], trivial, trivial,
      fun _ => ⟨rfl, rfl, rfl⟩⟩
  | crash up => exact h.crashed _
  | @put e running =>
    have hput := s.proc.put_calls e
    refine h.proc running hput.active ?_ (hput.up ▸ h.up)
    rw [hput.pc, hput.node]
    exact h.creating
  | signal running stays => exact h.proc running rfl h.creating h.up
  | recover recovers => exact h.recovers recovers
  | writer running writes => exact h.writes running writes
  | uploader running uploads => exact h.uploads running uploads

theorem of_reach {g : State c → Act ε → Prop} (h : (lts c lim).Reach g s) : Tidy s := by
  refine h.invariant ?_ fun s a t _ ht _ hs => ht.step hs
  exact ⟨⟨by simp [lts], by simp [lts]⟩, by simp [lts, Proc.init, Pc.creating],
    by simp [lts, Named, Proc.init], trivial, trivial, fun _ => ⟨rfl, rfl, rfl⟩⟩

end Tidy

end Tunneld.Spool

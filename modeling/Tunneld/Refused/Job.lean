import Tunneld.Refused.Attempts

/-!
# The daily report of refused apps

A run of the job loads the list of attempts, goes through the refusal records and puts the attempts
that are new into the list: those it reports, and counts those of the apps that are not shown.  Then
it stores the list, with the day.  A run on a day that has had its report does nothing.

An attempt is new if its id is not in the index, and the index is made from the list that was read.
So every attempt is reported once as long as the list gives back the ids that were put into it.  It
does not if the name of the app is not UTF-8: then the attempt is new again on every day.  And an
attempt is not reported at all if another one has the same id, which can be if their times are
farther apart than `UnixNano` can tell.

## Main results

* `reported_once`: every attempt is reported once, if names are UTF-8 and times fit;
* `reported_twice_or_never`: the two ways above.
-/

namespace Tunneld.Refused

open Utf8 Attest

/-- The configuration of the job, as far as it decides what is reported. -/
structure Config where
  parseChain : ChainParser
  hideApps : List Bytes

/-- What a run finds. -/
structure Input where
  day : Text
  revoked : Int → Bool
  /-- The refusal records, or nothing if they or the revocation list cannot be read. -/
  found : Option (List RejectedEnrollment)

/-- Where the loop of a run stands. -/
structure Progress where
  list : AttemptList
  idx : List AttemptID
  fresh : List (Bytes × Attempt)
  /-- The attempts that have been counted in `hiddenAttempts`. -/
  hidden : List (Bytes × Attempt)

/-- One record. -/
def Progress.next (cfg : Config) (revoked : Int → Bool) (p : Progress) (ev : RejectedEnrollment) :
    Progress :=
  let (app, a) := toAttempt cfg.parseChain revoked ev
  match p.list.add p.idx app a with
  | none => p
  | some (list, idx) =>
    if cfg.hideApps.contains app then
      { p with list := list, idx := idx, hidden := p.hidden ++ [(app, a)] }
    else { p with list := list, idx := idx, fresh := p.fresh ++ [(app, a)] }

/-- How a run ends. -/
inductive Outcome
  /-- With an error, before a message was sent. -/
  | failed
  /-- The report of the day was already sent. -/
  | nothing
  /-- The report was sent, but there is no text for the list. -/
  | unsaved (fresh hidden : List (Bytes × Attempt))
  /-- The report was sent, and the list stored. -/
  | sent (fresh hidden : List (Bytes × Attempt))
  deriving DecidableEq

/-- The attempts that a run has reported as new or counted as hidden. -/
def Outcome.reported : Outcome → List (Bytes × Attempt)
  | .failed | .nothing => []
  | .unsaved fresh hidden | .sent fresh hidden => fresh ++ hidden

/-- `run`: how it ends, and what is stored then. -/
def run (cfg : Config) (stored : Option Bytes) (i : Input) : Outcome × Option Bytes :=
  match load stored with
  | none => (.failed, stored)
  | some list =>
    if list.lastReport = i.day.bytes then (.nothing, stored)
    else
      match i.found with
      | none => (.failed, stored)
      | some records =>
        let p := records.foldl (Progress.next cfg i.revoked) ⟨list, list.index, [], []⟩
        match { p.list with lastReport := i.day.bytes }.save with
        | none => (.unsaved p.fresh p.hidden, stored)
        | some s => (.sent p.fresh p.hidden, some s)

/-- One run after another. -/
def runs (cfg : Config) : Option Bytes → List Input → List Outcome × Option Bytes
  | stored, [] => ([], stored)
  | stored, i :: l =>
    let r := run cfg stored i
    let rest := runs cfg r.2 l
    (r.1 :: rest.1, rest.2)

/-- The ids that runs have reported. -/
def reportedIDs (l : List Outcome) : List AttemptID := l.flatMap fun o => ids o.reported

/-- The id of the attempt of a record; the revocation list has no part in it. -/
def recordID (cfg : Config) (ev : RejectedEnrollment) : AttemptID :=
  let p := toAttempt cfg.parseChain (fun _ => false) ev
  idOf p.1 p.2

/-- The name of the app is UTF-8, and the time has a `UnixNano`. -/
def Good (cfg : Config) (ev : RejectedEnrollment) : Prop :=
  Valid (recordID cfg ev).app ∧ InRange ev.ts

/-! ## One record -/

section Record

variable (cfg : Config) (revoked : Int → Bool) (ev : RejectedEnrollment)

theorem toAttempt_time : (toAttempt cfg.parseChain revoked ev).2.time = ev.ts := by
  rw [toAttempt]
  cases described cfg.parseChain ev <;> rfl

theorem idOf_toAttempt :
    idOf (toAttempt cfg.parseChain revoked ev).1 (toAttempt cfg.parseChain revoked ev).2 =
      recordID cfg ev := by
  rw [recordID, toAttempt, toAttempt]
  cases described cfg.parseChain ev <;> rfl

/-- The address and the key of an attempt are UTF-8. -/
theorem toAttempt_valid : Valid (toAttempt cfg.parseChain revoked ev).2.ip ∧
    Valid (toAttempt cfg.parseChain revoked ev).2.key := by
  rw [toAttempt]
  cases described cfg.parseChain ev with
  | none => exact ⟨ev.srcIP.valid, ev.signerDigestHex.valid⟩
  | some p =>
    refine ⟨ev.srcIP.valid, ?_⟩
    simp only [ofDescription]
    cases p.2.signatureDigests with
    | nil => exact ev.signerDigestHex.valid
    | cons d l =>
      simp only
      split
      · exact valid_ascii (Hex.encode_ascii d)
      · exact ev.signerDigestHex.valid

end Record

/-! ## One run -/

section Run

variable {cfg : Config} {list : AttemptList} {p : Progress} {ev : RejectedEnrollment}

/-- What the loop has done so far to the list it began with. -/
structure Loop (list : AttemptList) (p : Progress) : Prop where
  idx : ∀ x, x ∈ p.idx ↔ x ∈ p.list.index
  index : p.list.index.Perm (ids (p.fresh ++ p.hidden) ++ list.index)
  nodup : p.list.index.Nodup
  storable : Storable p.list

/-- The index of a list with a new attempt. -/
theorem index_put (l : AttemptList) (app : Bytes) (a : Attempt) :
    (l.put app a).index.Perm (idOf app a :: l.index) :=
  (l.attempts_put app a).map _

/-- One record: nothing happens if its attempt is known, and otherwise the attempt is added and
reported. -/
inductive Nexted (cfg : Config) (revoked : Int → Bool) (p : Progress) (ev : RejectedEnrollment) :
    Progress → Prop
  | known (h : recordID cfg ev ∈ p.idx) : Nexted cfg revoked p ev p
  | fresh {app a q}
      (ha : toAttempt cfg.parseChain revoked ev = (app, a)) (hnew : recordID cfg ev ∉ p.idx)
      (hlist : q.list = p.list.put app a) (hidx : q.idx = recordID cfg ev :: p.idx)
      (hreported : (q.fresh ++ q.hidden).Perm ((app, a) :: (p.fresh ++ p.hidden))) :
      Nexted cfg revoked p ev q

theorem nexted_next (cfg : Config) (revoked : Int → Bool) (p : Progress)
    (ev : RejectedEnrollment) : Nexted cfg revoked p ev (p.next cfg revoked ev) := by
  have hid := idOf_toAttempt cfg revoked ev
  rw [Progress.next]
  cases ha : toAttempt cfg.parseChain revoked ev with
  | mk app a =>
    rw [ha] at hid
    simp only [AttemptList.add, hid]
    by_cases hknown : recordID cfg ev ∈ p.idx
    · rw [if_pos hknown]
      exact .known hknown
    · rw [if_neg hknown]
      simp only
      split
      · refine .fresh ha hknown rfl rfl ?_
        rw [← List.append_assoc]
        exact List.perm_append_singleton _ _
      · refine .fresh ha hknown rfl rfl ?_
        rw [List.append_assoc]
        exact List.perm_middle

theorem Loop.next (h : Loop list p) (revoked : Int → Bool) (hgood : Good cfg ev) :
    Loop list (p.next cfg revoked ev) ∧
      ∀ x, x ∈ (p.next cfg revoked ev).list.index ↔ x = recordID cfg ev ∨ x ∈ p.list.index := by
  have hnext := nexted_next cfg revoked p ev
  generalize p.next cfg revoked ev = q at hnext ⊢
  cases hnext with
  | known hknown =>
    refine ⟨h, fun x => ⟨.inr, ?_⟩⟩
    rintro (rfl | hx)
    · exact (h.idx _).1 hknown
    · exact hx
  | @fresh app a q ha hnew hlist hidx hreported =>
    have hid : idOf app a = recordID cfg ev := by
      have hrecord := idOf_toAttempt cfg revoked ev
      rwa [ha] at hrecord
    have hindex : q.list.index.Perm (recordID cfg ev :: p.list.index) := by
      rw [hlist, ← hid]
      exact index_put p.list app a
    refine ⟨⟨fun x => ?_, ?_, ?_, ?_⟩, fun x => ?_⟩
    · rw [hidx, hindex.mem_iff, List.mem_cons, List.mem_cons, h.idx]
    · have hids : (ids (q.fresh ++ q.hidden)).Perm
          (recordID cfg ev :: ids (p.fresh ++ p.hidden)) := by
        rw [← hid]
        exact hreported.map _
      exact hindex.trans ((h.index.cons _).trans (hids.append_right _).symm)
    · rw [hindex.nodup_iff, List.nodup_cons]
      exact ⟨fun hold => hnew ((h.idx _).2 hold), h.nodup⟩
    · rw [hlist]
      have hvalid := toAttempt_valid cfg revoked ev
      have htime := toAttempt_time cfg revoked ev
      rw [ha] at hvalid htime
      have happ : Valid app := by
        have hname := hgood.1
        rwa [← hid] at hname
      exact h.storable.put happ ⟨hvalid.1, hvalid.2, htime ▸ hgood.2.lt_limit⟩
    · rw [hindex.mem_iff, List.mem_cons]

theorem Loop.foldl {records : List RejectedEnrollment} (h : Loop list p) (revoked : Int → Bool)
    (hgood : ∀ ev ∈ records, Good cfg ev) :
    Loop list (records.foldl (Progress.next cfg revoked) p) ∧
      (∀ x ∈ p.list.index, x ∈ (records.foldl (Progress.next cfg revoked) p).list.index) ∧
      ∀ ev ∈ records, recordID cfg ev ∈
        (records.foldl (Progress.next cfg revoked) p).list.index := by
  induction records generalizing p with
  | nil => exact ⟨h, fun _ hx => hx, fun ev hev => absurd hev List.not_mem_nil⟩
  | cons ev records ih =>
    obtain ⟨hnext, hmem⟩ := h.next revoked (hgood ev List.mem_cons_self)
    obtain ⟨hloop, hkept, hall⟩ := ih hnext fun e he => hgood e (.tail _ he)
    refine ⟨hloop, fun x hx => hkept x ((hmem x).2 (.inr hx)), fun e he => ?_⟩
    rcases List.mem_cons.1 he with rfl | he
    · exact hkept _ ((hmem _).2 (.inl rfl))
    · exact hall e he

/-- The list that is stored has the day of the last report, and the ids that have been reported. -/
structure Stored (stored : Option Bytes) (last : Bytes) (log : List AttemptID) : Prop where
  list : ∃ list, load stored = some list ∧ Storable list ∧ list.lastReport = last ∧
    list.index.Perm log
  nodup : log.Nodup

/-- One run: it does nothing if the day has had its report, it fails if it cannot read the records,
and otherwise it sends a report, after which all of its records have been reported. -/
inductive Ran (cfg : Config) (stored : Option Bytes) (i : Input) (last : Bytes)
    (log : List AttemptID) : Outcome × Option Bytes → Prop
  | kept {o} (ho : o.reported = []) (hday : o = .nothing → last = i.day.bytes)
      (hfound : o = .nothing ∨ i.found = none) : Ran cfg stored i last log (o, stored)
  | sent {records fresh hidden}
      {s} (hfound : i.found = some records)
      (hstored : Stored s i.day.bytes (log ++ ids (fresh ++ hidden)))
      (hall : ∀ ev ∈ records, recordID cfg ev ∈ log ++ ids (fresh ++ hidden)) :
      Ran cfg stored i last log (.sent fresh hidden, s)

theorem Stored.run {stored : Option Bytes} {last : Bytes} {log : List AttemptID} {i : Input}
    (h : Stored stored last log)
    (hgood : ∀ records, i.found = some records → ∀ ev ∈ records, Good cfg ev) :
    Ran cfg stored i last log (run cfg stored i) := by
  obtain ⟨list, hload, hstorable, hlast, hindex⟩ := h.list
  rw [Refused.run, hload]
  simp only
  split
  · rename_i hday
    exact .kept rfl (fun _ => hlast.symm.trans hday) (.inl rfl)
  cases hfound : i.found with
  | none => exact .kept rfl (fun ho => by cases ho) (.inr hfound)
  | some records =>
    simp only
    have hbegin : Loop list ⟨list, list.index, [], []⟩ :=
      ⟨fun _ => .rfl, .refl _, hindex.nodup_iff.2 h.nodup, hstorable⟩
    obtain ⟨hloop, -, hall⟩ := hbegin.foldl i.revoked (hgood records hfound)
    generalize records.foldl (Progress.next cfg i.revoked) ⟨list, list.index, [], []⟩ = p
      at hloop hall ⊢
    have hday : Storable { p.list with lastReport := i.day.bytes } :=
      ⟨i.day.valid, hloop.storable.names, hloop.storable.attempts⟩
    obtain ⟨s, list', hsave, hload', hreport, hperm⟩ := hday.load_save
    have hlog : p.list.index.Perm (log ++ ids (p.fresh ++ p.hidden)) :=
      hloop.index.trans (List.perm_append_comm.trans (hindex.append_right _))
    rw [hsave]
    refine .sent hfound ⟨⟨list', hload', hday.of_perm hreport hperm, hreport, ?_⟩,
      hlog.nodup_iff.1 hloop.nodup⟩ fun ev hev => hlog.mem_iff.1 (hall ev hev)
    exact ((AttemptList.attempts_perm hperm).map _).trans hlog

end Run

/-! ## Every sequence of runs -/

section Runs

variable {cfg : Config} {l : List Input}

/-- The days of the runs. -/
def days (l : List Input) : List Bytes := l.map fun i => i.day.bytes

theorem Stored.runs {stored : Option Bytes} {last : Bytes} {log : List AttemptID}
    (h : Stored stored last log)
    (hgood : ∀ i ∈ l, ∀ records, i.found = some records → ∀ ev ∈ records, Good cfg ev) :
    (∃ last', Stored (runs cfg stored l).2 last' (log ++ reportedIDs (runs cfg stored l).1)) ∧
      (∀ p ∈ l.zip (runs cfg stored l).1, ∀ records, p.1.found = some records →
        p.2 = .nothing ∨ (∃ fresh hidden, p.2 = .sent fresh hidden) ∧
          ∀ ev ∈ records, recordID cfg ev ∈ log ++ reportedIDs (runs cfg stored l).1) ∧
      (last ∉ days l → (days l).Nodup → .nothing ∉ (runs cfg stored l).1) := by
  induction l generalizing stored last log with
  | nil =>
    rw [Refused.runs, reportedIDs, List.flatMap_nil, List.append_nil]
    exact ⟨⟨last, h⟩, fun p hp => absurd hp List.not_mem_nil, fun _ _ => List.not_mem_nil⟩
  | cons i l ih =>
    have hrun := h.run (hgood i List.mem_cons_self)
    rw [Refused.runs]
    generalize Refused.run cfg stored i = r at hrun ⊢
    cases hrun with
    | @kept o ho hday hfound =>
      obtain ⟨hstored, hall, hdaily⟩ := ih h fun j hj => hgood j (.tail _ hj)
      have hlog (outs : List Outcome) : reportedIDs (o :: outs) = reportedIDs outs := by
        rw [reportedIDs, List.flatMap_cons, ho]
        rfl
      simp only [hlog]
      refine ⟨hstored, fun p hp records hrecords => ?_, fun hlast hnodup hmem => ?_⟩
      · rcases List.mem_cons.1 hp with rfl | hp
        · exact .inl (hfound.resolve_right fun hnone => by simp [hnone] at hrecords)
        · exact hall p hp records hrecords
      · rw [days, List.map_cons, List.mem_cons, not_or] at hlast
        rcases List.mem_cons.1 hmem with hmem | hmem
        · exact hlast.1 (hday hmem.symm)
        · exact hdaily hlast.2 (List.nodup_cons.1 hnodup).2 hmem
    | @sent records fresh hidden s hfound hstored hreported =>
      obtain ⟨hstored, hall, hdaily⟩ := ih hstored fun j hj => hgood j (.tail _ hj)
      have hlog (outs : List Outcome) : log ++ reportedIDs (.sent fresh hidden :: outs) =
          log ++ ids (fresh ++ hidden) ++ reportedIDs outs := by
        rw [List.append_assoc]
        rfl
      simp only [hlog]
      refine ⟨hstored, fun p hp records' hrecords => ?_, fun hlast hnodup hmem => ?_⟩
      · rcases List.mem_cons.1 hp with rfl | hp
        · cases hfound.symm.trans hrecords
          exact .inr ⟨⟨fresh, hidden, rfl⟩, fun ev hev =>
            List.mem_append_left _ (hreported ev hev)⟩
        · exact hall p hp records' hrecords
      · rcases List.mem_cons.1 hmem with hmem | hmem
        · cases hmem
        · obtain ⟨hnew, hnodup⟩ := List.nodup_cons.1 hnodup
          exact hdaily hnew hnodup hmem

/-- Records that differ in app, time, address or key have attempts with different ids. -/
theorem eq_of_recordID_eq {ev ev' : RejectedEnrollment} (h : Good cfg ev) (h' : Good cfg ev')
    (revoked : Int → Bool) (heq : recordID cfg ev = recordID cfg ev') :
    (toAttempt cfg.parseChain revoked ev).1 = (toAttempt cfg.parseChain revoked ev').1 ∧
      (toAttempt cfg.parseChain revoked ev).2.time =
        (toAttempt cfg.parseChain revoked ev').2.time ∧
      (toAttempt cfg.parseChain revoked ev).2.ip = (toAttempt cfg.parseChain revoked ev').2.ip ∧
      (toAttempt cfg.parseChain revoked ev).2.key =
        (toAttempt cfg.parseChain revoked ev').2.key := by
  rw [← idOf_toAttempt cfg revoked ev, ← idOf_toAttempt cfg revoked ev'] at heq
  refine eq_of_idOf_eq ?_ ?_ heq
  · rw [toAttempt_time]
    exact h.2
  · rw [toAttempt_time]
    exact h'.2

/-- **Every attempt is reported once.**  Let the app of every record have a name in UTF-8 and its
time a `UnixNano`.  Take any sequence of runs, each on records and a revocation list of its own.  A
run that can read its records sends its report, unless the day has had one, and then the attempt of
each of the records is reported as new or counted as hidden once in all of the runs together.  If
every run has a day of its own, none of them does nothing.  Records that differ in app, time,
address or key have attempts of their own, and the stored list has no attempt twice. -/
theorem reported_once
    (hgood : ∀ i ∈ l, ∀ records, i.found = some records → ∀ ev ∈ records, Good cfg ev) :
    (∀ p ∈ l.zip (runs cfg none l).1, ∀ records, p.1.found = some records →
      p.2 = .nothing ∨ (∃ fresh hidden, p.2 = .sent fresh hidden) ∧
        ∀ ev ∈ records, (reportedIDs (runs cfg none l).1).count (recordID cfg ev) = 1) ∧
    ([] ∉ days l → (days l).Nodup → .nothing ∉ (runs cfg none l).1) ∧
    (∀ ev ev', Good cfg ev → Good cfg ev' → ∀ revoked, recordID cfg ev = recordID cfg ev' →
      (toAttempt cfg.parseChain revoked ev).1 = (toAttempt cfg.parseChain revoked ev').1 ∧
        (toAttempt cfg.parseChain revoked ev).2.time =
          (toAttempt cfg.parseChain revoked ev').2.time ∧
        (toAttempt cfg.parseChain revoked ev).2.ip = (toAttempt cfg.parseChain revoked ev').2.ip ∧
        (toAttempt cfg.parseChain revoked ev).2.key =
          (toAttempt cfg.parseChain revoked ev').2.key) ∧
    ∃ list, load (runs cfg none l).2 = some list ∧ list.index.Nodup := by
  have hbegin : Stored none [] [] :=
    ⟨⟨⟨[], ∅⟩, rfl, ⟨by decide, fun e he => absurd he List.not_mem_nil,
      fun p hp => absurd hp List.not_mem_nil⟩, rfl, .refl _⟩, .nil⟩
  obtain ⟨⟨last, hstored⟩, hall, hdaily⟩ := hbegin.runs hgood
  rw [List.nil_append] at hstored hall
  refine ⟨fun p hp records hfound => ?_, hdaily, fun ev ev' h h' => eq_of_recordID_eq h h', ?_⟩
  · refine (hall p hp records hfound).imp_right fun hsent => ⟨hsent.1, fun ev hev => ?_⟩
    exact List.count_eq_one_of_mem hstored.nodup (hsent.2 ev hev)
  · obtain ⟨list, hload, -, -, hperm⟩ := hstored.list
    exact ⟨list, hload, hperm.nodup_iff.2 hstored.nodup⟩

end Runs

/-! ## Some runs -/

/-- A record of that time; its chain is read by the configuration. -/
def record (ts : Nat) : RejectedEnrollment where
  ts := ts
  srcIP := ⟨ascii "198.51.100.7".toList, by decide⟩
  reason := ⟨ascii "attest-signer".toList, by decide⟩
  attestChainPEM := ⟨ascii "chain".toList, by decide⟩
  claimedPackage := ⟨ascii "dev.example.copy".toList, by decide⟩
  signerDigestHex := ⟨ascii "aa".toList, by decide⟩

/-- The runs of two days on the same records. -/
def twoDays (records : List RejectedEnrollment) : List Input :=
  [⟨⟨ascii "2026-11-07".toList, by decide⟩, fun _ => false, some records⟩,
    ⟨⟨ascii "2026-11-08".toList, by decide⟩, fun _ => false, some records⟩]

/-- A job that cannot read the chains. -/
def unreadable : Config := ⟨fun _ => none, []⟩

/-- Two records, of different times: the first run reports both, and the second none. -/
theorem reported_once_in_two_days :
    ∃ fresh, (runs unreadable none
        (twoDays [record 63929520000000000000, record 63929520000000000001])).1 =
        [.sent fresh [], .sent [] []] ∧
      (reportedIDs [.sent fresh [], .sent [] []]).count
        (recordID unreadable (record 63929520000000000001)) = 1 := by
  have hruns : (runs unreadable none
      (twoDays [record 63929520000000000000, record 63929520000000000001])).1 =
        [.sent [toAttempt unreadable.parseChain (fun _ => false) (record 63929520000000000000),
          toAttempt unreadable.parseChain (fun _ => false) (record 63929520000000000001)] [],
          .sent [] []] := by decide +kernel
  have hgood : ∀ i ∈ twoDays [record 63929520000000000000, record 63929520000000000001],
      ∀ records, i.found = some records → ∀ ev ∈ records, Good unreadable ev := by
    have hall : ∀ ev ∈ [record 63929520000000000000, record 63929520000000000001],
        Good unreadable ev := by
      simp only [List.forall_mem_cons, List.not_mem_nil, false_imp_iff, implies_true, and_true]
      exact ⟨⟨by decide +kernel, by decide +kernel⟩, by decide +kernel, by decide +kernel⟩
    intro i hi records hfound
    rcases List.mem_cons.1 hi with rfl | hi
    · exact Option.some.inj hfound ▸ hall
    · rcases List.mem_singleton.1 hi with rfl
      exact Option.some.inj hfound ▸ hall
  refine ⟨_, hruns, ?_⟩
  obtain hnothing | ⟨-, hcount⟩ := (reported_once hgood).1
    (⟨⟨ascii "2026-11-07".toList, by decide⟩, fun _ => false,
      some [record 63929520000000000000, record 63929520000000000001]⟩, _)
    (by rw [hruns]; exact List.mem_cons_self) _ rfl
  · cases hnothing
  · rw [hruns] at hcount
    exact hcount _ (.tail _ List.mem_cons_self)

/-- A leaf whose app has a name of one byte, which is no character. -/
def leaf : Certificate :=
  ⟨[(attestOID, [0x30, 0x28, 0x02, 0x01, 0x03, 0x0A, 0x01, 0x01, 0x02, 0x01, 0x04, 0x0A, 0x01, 0x01,
    0x04, 0x00, 0x04, 0x00, 0x30, 0x14, 0xBF, 0x85, 0x45, 0x10, 0x04, 0x0E, 0x30, 0x0C, 0x31, 0x08,
    0x30, 0x06, 0x04, 0x01, 0xFF, 0x02, 0x01, 0x01, 0x31, 0x00, 0x30, 0x00])], 1⟩

/-- A job that reads that leaf in every chain. -/
def withLeaf : Config := ⟨fun _ => some [leaf], []⟩

/-- The attempt of an app whose name is not UTF-8 is reported as new on both days.  And of two
records whose times are `2 ^ 64` nanoseconds apart one is never reported. -/
theorem reported_twice_or_never :
    (∃ a, (runs withLeaf none (twoDays [record 63929520000000000000])).1 =
        [.sent [([0xFF], a)] [], .sent [([0xFF], a)] []]) ∧
    ∃ a, (runs unreadable none
        (twoDays [record 63929520000000000000, record 82376264073709551616])).1 =
        [.sent [a] [], .sent [] []] := by
  refine ⟨⟨(toAttempt withLeaf.parseChain (fun _ => false) (record 63929520000000000000)).2, ?_⟩,
    ⟨toAttempt unreadable.parseChain (fun _ => false) (record 63929520000000000000), ?_⟩⟩
  · decide +kernel
  · decide +kernel

end Tunneld.Refused

import Mathlib.Algebra.Group.Int.Defs
import Mathlib.Data.List.Nodup
import Tunneld.Lib.Lts
import Tunneld.Lib.Utf8

/-!
# The traffic counters and their flushes

`Bytes` adds to the counters of a tunnel in a map behind a lock.  A flush swaps the map for an empty
one and hands the entries to the sink one by one, in Go's map order, while further calls of `Bytes`
and further flushes go on; an entry the sink does not take is added to the map again.

The state has the map (`agg`), the entries that flushes have taken out of it (`held`, with the flush
that has each), and the flushes in progress.  What was recorded and what was applied is kept
besides, in exact numbers, for the comparison; the counters are `int64`.

At any moment what was recorded is what was applied, what is in the map and what is held
(`Conserved`).  A flush that has ended holds nothing (`held_active`).

## Main results

* `traffic_conserved`: no byte is lost or counted twice.
-/

namespace Tunneld.Metrics

open Utf8 (Bytes ascii)

/-- `aggEntry`. -/
structure AggEntry where
  bytesIn : Int64
  bytesOut : Int64
  deriving DecidableEq

/-- One of the two counters. -/
def AggEntry.amount (e : AggEntry) (inward : Bool) : Int64 := if inward then e.bytesIn else e.bytesOut

/-- The map of counters. -/
abbrev Agg := List (Bytes × AggEntry)

/-- The entry of a name, made if there is none, after `f`. -/
def Agg.modify (name : Bytes) (f : AggEntry → AggEntry) : Agg → Agg
  | [] => [(name, f ⟨0, 0⟩)]
  | (n, e) :: l => if n = name then (n, f e) :: l else (n, e) :: modify name f l

def accum (name : Bytes) (f : AggEntry → AggEntry) (agg : Agg) : Agg :=
  if name = [] then agg else Agg.modify name f agg

/-- An entry a flush has taken out of the map; `failed` if the sink has not taken it. -/
structure Held where
  flush : Nat
  name : Bytes
  entry : AggEntry
  failed : Bool
  deriving DecidableEq

structure State where
  agg : Agg := []
  held : List Held := []
  active : List Nat := []
  /-- The bytes of the calls of `Bytes` for a name in a direction. -/
  recorded : Bytes → Bool → Int := fun _ _ => 0
  /-- The bytes the sink has applied. -/
  applied : Bytes → Bool → Int := fun _ _ => 0

/-- What the goroutines do: a call of `Bytes`, or a step of a flush. -/
inductive Act
  | bytes (name direction : Bytes) (n : Int64)
  | swap (flush : Nat)
  | skip (i : Nat)
  | addTraffic (i : Nat) (ok : Bool)
  | requeue (i : Nat)
  | finish (flush : Nat)
  deriving DecidableEq

/-- `direction == "in"`. -/
def isIn (direction : Bytes) : Bool := direction = ascii "in".toList

/-- Adds to a count of exact numbers. -/
def count (f : Bytes → Bool → Int) (name : Bytes) (e : AggEntry) : Bytes → Bool → Int :=
  fun k inward => if name = k then f k inward + (e.amount inward).toInt else f k inward

/-- The change of an entry by `Bytes`. -/
def bump (inward : Bool) (n : Int64) (e : AggEntry) : AggEntry :=
  if inward then { e with bytesIn := e.bytesIn + n } else { e with bytesOut := e.bytesOut + n }

/-- The change of an entry by another that is queued again. -/
def AggEntry.plus (a e : AggEntry) : AggEntry := ⟨a.bytesIn + e.bytesIn, a.bytesOut + e.bytesOut⟩

/-- The flush of the entry is not about to queue one again. -/
def State.atLoop (s : State) (h : Held) : Bool :=
  s.held.all fun g => g.flush ≠ h.flush ∨ ¬ g.failed

/-- `sink` says that there is one; without it a flush does nothing. -/
def step (sink : Bool) (s : State) : Act → Option State
  | .bytes name direction n =>
    some { s with
      agg := accum name (bump (isIn direction) n) s.agg
      recorded := fun k inward => s.recorded k inward +
        if name = k ∧ (direction = ascii "in".toList ↔ inward = true) then n.toInt else 0 }
  | .swap flush =>
    if sink ∧ flush ∉ s.active then
      some { s with
        agg := []
        held := s.held ++ s.agg.map fun p => ⟨flush, p.1, p.2, false⟩
        active := flush :: s.active }
    else none
  | .skip i => do
    let h ← s.held[i]?
    if s.atLoop h ∧ h.entry.bytesIn = 0 ∧ h.entry.bytesOut = 0 then
      some { s with held := s.held.eraseIdx i }
    else none
  | .addTraffic i ok => do
    let h ← s.held[i]?
    if s.atLoop h ∧ ¬ (h.entry.bytesIn = 0 ∧ h.entry.bytesOut = 0) then
      if ok then
        some { s with
          held := s.held.eraseIdx i
          applied := count s.applied h.name h.entry }
      else some { s with held := s.held.set i { h with failed := true } }
    else none
  | .requeue i => do
    let h ← s.held[i]?
    if h.failed then
      some { s with
        held := s.held.eraseIdx i
        agg := accum h.name (·.plus h.entry) s.agg }
    else none
  | .finish flush =>
    if s.held.all (·.flush ≠ flush) then some { s with active := s.active.erase flush } else none

def lts (sink : Bool) : Lts State Act := ⟨{}, step sink⟩

/-- The bytes still pending: the entry of the name in the map. -/
def State.pending (s : State) (name : Bytes) (inward : Bool) : Int64 :=
  ((s.agg.lookup name).map (·.amount inward)).getD 0

/-! ## Sums over entries -/

variable {k name : Bytes} {inward : Bool} {f : AggEntry → AggEntry} {l : Agg} {s t : State}

/-- What the entries of one name add up to. -/
def amountOf (k : Bytes) (inward : Bool) : Agg → Int64
  | [] => 0
  | (n, e) :: l => (if n = k then e.amount inward else 0) + amountOf k inward l

theorem amountOf_append (l m : Agg) :
    amountOf k inward (l ++ m) = amountOf k inward l + amountOf k inward m := by
  induction l with
  | nil => exact (Int64.zero_add _).symm
  | cons p l ih => rw [List.cons_append, amountOf, amountOf, ih, Int64.add_assoc]

/-- The entries flushes have, without whose they are. -/
def out (held : List Held) : Agg := held.map fun h => (h.name, h.entry)

theorem out_swap (held : List Held) (flush : Nat) (agg : Agg) :
    out (held ++ agg.map fun p => ⟨flush, p.1, p.2, false⟩) = out held ++ agg := by
  rw [out, List.map_append, List.map_map]
  exact congrArg (out held ++ ·) (List.map_id agg)

theorem out_set {held : List Held} {i : Nat} {h : Held} (hi : held[i]? = some h) (b : Bool) :
    out (held.set i { h with failed := b }) = out held := by
  obtain ⟨hlt, rfl⟩ := List.getElem?_eq_some_iff.1 hi
  have hlt' : i < (out held).length := by simpa [out] using hlt
  have hmap : (out held).set i (out held)[i] = out held := List.set_getElem_self hlt'
  rw [out, List.map_set]
  simpa [out] using hmap

/-- The entries without one of them. -/
theorem out_eraseIdx {held : List Held} {i : Nat} {h : Held} (hi : held[i]? = some h) :
    amountOf k inward (out held) = (if h.name = k then h.entry.amount inward else 0) +
      amountOf k inward (out (held.eraseIdx i)) := by
  induction held generalizing i with
  | nil => cases hi
  | cons g held ih =>
    cases i with
    | zero =>
      cases hi
      rfl
    | succ i =>
      have := ih hi
      rw [List.eraseIdx_cons_succ, out, List.map_cons, amountOf, out, List.map_cons, amountOf]
      simp only [out] at this
      grind

/-- A change that adds `d` to an entry adds it to the sum. -/
theorem amountOf_accum (hk : k ≠ []) {d : Int64}
    (hf : ∀ e : AggEntry, (f e).amount inward = e.amount inward + d) :
    amountOf k inward (accum name f l) = amountOf k inward l + if name = k then d else 0 := by
  rw [accum]
  split
  · next h => rw [if_neg fun h' => hk (h'.symm.trans h), Int64.add_zero]
  · induction l with
    | nil =>
      have hzero : (f ⟨0, 0⟩).amount inward = d := by
        rw [hf]
        cases inward <;> exact Int64.zero_add d
      show (if name = k then (f ⟨0, 0⟩).amount inward else 0) + 0 = 0 + _
      rw [hzero, Int64.add_comm]
    | cons p l ih =>
      rw [Agg.modify]
      split
      · next h =>
        subst h
        rw [amountOf, amountOf, hf]
        split <;> grind
      · rw [amountOf, amountOf, ih, Int64.add_assoc]

theorem nodup_accum (h : (l.map Prod.fst).Nodup) : ((accum name f l).map Prod.fst).Nodup := by
  have hkeys (l : Agg) : (l.modify name f).map Prod.fst =
      if name ∈ l.map Prod.fst then l.map Prod.fst else l.map Prod.fst ++ [name] := by
    induction l with
    | nil => rfl
    | cons p l ih =>
      rw [Agg.modify]
      by_cases hp : p.1 = name
      · simp [hp]
      · rw [if_neg hp, List.map_cons, ih, List.map_cons]
        simp only [List.mem_cons, Ne.symm hp, false_or]
        split <;> rfl
  rw [accum]
  split
  · exact h
  · rw [hkeys]
    split
    · exact h
    · next hname => exact List.Nodup.append h (List.nodup_singleton _) (by simpa using hname)

theorem amountOf_lookup (h : (l.map Prod.fst).Nodup) :
    amountOf k inward l = ((l.lookup k).map (·.amount inward)).getD 0 := by
  induction l with
  | nil => rfl
  | cons p l ih =>
    obtain ⟨hp, hl⟩ := List.nodup_cons.1 h
    rw [amountOf, ih hl, List.lookup_cons]
    by_cases hk : p.1 = k
    · subst hk
      have hnone : l.lookup p.1 = none := by
        refine List.lookup_eq_none_iff.2 fun q hq => ?_
        have hne : p.1 ≠ q.1 := fun h => hp (List.mem_map.2 ⟨q, hq, h.symm⟩)
        simpa using hne
      simp [hnone]
    · have hne : (k == p.1) = false := by simpa using Ne.symm hk
      rw [if_neg hk, hne, Int64.zero_add]

/-! ## Conservation -/

theorem ofInt_count (g : Bytes → Bool → Int) (e : AggEntry) :
    Int64.ofInt (count g name e k inward) =
      Int64.ofInt (g k inward) + if name = k then e.amount inward else 0 := by
  rw [count]
  split
  · rw [Int64.ofInt_add, Int64.ofInt_toInt]
  · rw [Int64.add_zero]

/-- `Bytes` adds to the counter of its direction. -/
theorem amount_bump (direction : Bytes) (n : Int64) (e : AggEntry) :
    (bump (isIn direction) n e).amount inward = e.amount inward +
      if direction = ascii "in".toList ↔ inward = true then n else 0 := by
  rw [isIn]
  generalize ascii "in".toList = word
  by_cases h : direction = word <;> cases inward <;> simp [bump, AggEntry.amount, h]

theorem ofInt_recorded (x : Int) (n : Int64) (p q : Prop) [Decidable p] [Decidable q] :
    Int64.ofInt (x + if p ∧ q then n.toInt else 0) =
      Int64.ofInt x + if p then (if q then n else 0) else 0 := by
  by_cases hp : p <;> by_cases hq : q <;> simp [hp, hq, Int64.ofInt_add]

theorem amount_plus (a e : AggEntry) :
    (a.plus e).amount inward = a.amount inward + e.amount inward := by
  cases inward <;> rfl

structure Inv (s : State) : Prop where
  /-- What was recorded is what was applied, what is in the map and what is held. -/
  conserved : ∀ k ≠ [], ∀ inward, Int64.ofInt (s.recorded k inward) =
    Int64.ofInt (s.applied k inward) + amountOf k inward s.agg + amountOf k inward (out s.held)
  nodup : (s.agg.map Prod.fst).Nodup
  held_active : ∀ h ∈ s.held, h.flush ∈ s.active

theorem Inv.step {sink : Bool} {a : Act} (h : Inv s) (hs : step sink s a = some t) : Inv t := by
  have herase : ∀ i, ∀ g ∈ s.held.eraseIdx i, g.flush ∈ s.active := fun i g hg =>
    h.held_active g (List.mem_of_mem_eraseIdx hg)
  cases a with
  | bytes name direction n =>
    cases hs
    refine ⟨fun k hk inward => ?_, nodup_accum h.nodup, h.held_active⟩
    have := h.conserved k hk inward
    dsimp only
    rw [ofInt_recorded, amountOf_accum hk (amount_bump direction n)]
    grind
  | swap flush =>
    obtain ⟨-, rfl⟩ := Lts.taken hs
    refine ⟨fun k hk inward => ?_, List.nodup_nil, fun g hg => ?_⟩
    · have := h.conserved k hk inward
      dsimp only
      rw [out_swap, amountOf_append, amountOf]
      grind
    · rcases List.mem_append.1 hg with hg | hg
      · exact List.mem_cons_of_mem _ (h.held_active g hg)
      · obtain ⟨p, -, rfl⟩ := List.mem_map.1 hg
        exact List.mem_cons_self
  | skip i =>
    obtain ⟨g, hg, hs⟩ := Option.bind_eq_some_iff.1 hs
    obtain ⟨⟨-, hin, hout⟩, rfl⟩ := Lts.taken hs
    refine ⟨fun k hk inward => ?_, h.nodup, herase i⟩
    have hzero : g.entry.amount inward = 0 := by cases inward <;> assumption
    have := h.conserved k hk inward
    rw [out_eraseIdx hg, hzero, ite_self, Int64.zero_add] at this
    exact this
  | addTraffic i ok =>
    obtain ⟨g, hg, hs⟩ := Option.bind_eq_some_iff.1 hs
    obtain ⟨-, hs⟩ := Option.ite_none_right_eq_some.1 hs
    cases ok with
    | true =>
      cases hs
      refine ⟨fun k hk inward => ?_, h.nodup, herase i⟩
      have := h.conserved k hk inward
      rw [out_eraseIdx hg] at this
      dsimp only
      rw [ofInt_count]
      grind
    | false =>
      cases hs
      refine ⟨fun k hk inward => ?_, h.nodup, fun g' hg' => ?_⟩
      · dsimp only
        rw [out_set hg]
        exact h.conserved k hk inward
      · rcases List.mem_or_eq_of_mem_set hg' with hg' | rfl
        · exact h.held_active g' hg'
        · exact h.held_active g (List.mem_of_getElem? hg)
  | requeue i =>
    obtain ⟨g, hg, hs⟩ := Option.bind_eq_some_iff.1 hs
    obtain ⟨-, rfl⟩ := Lts.taken hs
    refine ⟨fun k hk inward => ?_, nodup_accum h.nodup, herase i⟩
    have := h.conserved k hk inward
    rw [out_eraseIdx hg] at this
    dsimp only
    rw [amountOf_accum hk fun e => amount_plus e g.entry]
    grind
  | finish flush =>
    obtain ⟨hnone, rfl⟩ := Lts.taken hs
    refine ⟨h.conserved, h.nodup, fun g hg => ?_⟩
    have hne : g.flush ≠ flush := by simpa using List.all_eq_true.1 hnone g hg
    exact (List.mem_erase_of_ne hne).2 (h.held_active g hg)

theorem inv_of_reach {sink : Bool} (h : (lts sink).Reach Lts.always s) : Inv s := by
  refine h.invariant (P := Inv) ⟨fun k _ inward => rfl, ?_, ?_⟩ fun s a t _ hs _ ht => hs.step ht
  · exact List.nodup_nil
  · exact fun g hg => absurd hg List.not_mem_nil

/-- **No byte is lost or counted twice.**  When no flush is in progress, the bytes recorded for a
tunnel in a direction are the bytes applied and the bytes pending: as `int64`s, and in exact numbers
as long as what is not applied needs no more than 63 bits. -/
theorem traffic_conserved {sink : Bool} (h : (lts sink).Reach Lts.always s) (hidle : s.active = [])
    (name : Bytes) (hname : name ≠ []) (inward : Bool) :
    Int64.ofInt (s.recorded name inward) =
      Int64.ofInt (s.applied name inward) + s.pending name inward ∧
    (-2 ^ 63 ≤ s.recorded name inward - s.applied name inward →
      s.recorded name inward - s.applied name inward < 2 ^ 63 →
      s.recorded name inward = s.applied name inward + (s.pending name inward).toInt) := by
  have hinv := inv_of_reach h
  have hheld : s.held = [] := List.eq_nil_iff_forall_not_mem.2 fun g hg => by
    have := hinv.held_active g hg
    rw [hidle] at this
    cases this
  have heq : Int64.ofInt (s.recorded name inward) =
      Int64.ofInt (s.applied name inward) + s.pending name inward := by
    rw [hinv.conserved name hname inward, hheld, amountOf_lookup hinv.nodup]
    exact Int64.add_zero _
  refine ⟨heq, fun hlow hhigh => ?_⟩
  have hpending : s.pending name inward =
      Int64.ofInt (s.recorded name inward - s.applied name inward) := by
    rw [Int64.ofInt_sub, heq]
    grind
  have hexact := Int.bmod_eq_of_le (m := Int64.size) hlow hhigh
  rw [hpending, Int64.toInt_ofInt, hexact]
  omega

/-- A flush fails while bytes are recorded, and the next one saves them all. -/
theorem traffic_conserved_failure : ∃ s : State, (lts true).Reach Lts.always s ∧
    s.active = [] ∧ s.applied [1] true = 12 ∧ s.recorded [1] true = 12 ∧
    Int64.ofInt (s.recorded [1] true) = Int64.ofInt (s.applied [1] true) + s.pending [1] true := by
  obtain ⟨s, hs, hidle, happlied, hrecorded⟩ :=
    Lts.exists_reach_of_any (L := lts true) (g := Lts.always)
      (l := [.bytes [1] (ascii "in".toList) 5, .swap 0, .addTraffic 0 false,
        .bytes [1] (ascii "in".toList) 7, .requeue 0, .finish 0, .swap 1, .addTraffic 0 true,
        .finish 1])
      (P := fun s => s.active = [] ∧ s.applied [1] true = 12 ∧ s.recorded [1] true = 12)
      (by decide +kernel)
  exact ⟨s, hs, hidle, happlied, hrecorded, (traffic_conserved hs hidle [1] (by decide) true).1⟩

end Tunneld.Metrics

import Tunneld.Limit.Sections

/-!
# The wait that a refused call is told

`TakeACME`, `PrepayACME` and `ReserveACME` refuse when a bucket has too few tokens, and say how long
to wait.  What they need differs, and so does the least they say, but they are alike otherwise:
`Op.asks` is what a call asks of, `Op.need` how much, `Op.least` the least wait.  A call is refused
exactly when a bucket it asks of has less than it needs (`exec_done`, `exec_wait`).

A bucket that is short has its tokens at the instant that `waitFor` names and not before
(`TokenBucket.add_waitFor`).  That instant does not depend on when the bucket is looked at, so a
caller who waits as long as it is told finds the tokens there, if nobody else has taken any.  Nobody
has to fear that the hash is gone by then: it stands for a full bucket, as a missing one does.

## Main results

* `granted_after_wait`: the wait is long enough, and for one bucket no longer than it must be.
-/

namespace Tunneld.AcmeBudget

open Clock TokenBucket

/-! ## One bucket -/

section Bucket

variable {b : TokenBucket} {h : Option Hash} {now now' : Int} {need : ℚ}

/-- The tokens that a section finds in a bucket. -/
def seen (b : TokenBucket) (h : Option Hash) (now : Int) : ℚ :=
  found b (visible h (unixMilli now)) now

/-- A bucket that has enough still has it later. -/
theorem le_seen_of_le (hneed : need ≤ b.capacity) (hle : now ≤ now') (h' : need ≤ seen b h now) :
    need ≤ seen b h now' := by
  rw [seen, found] at h' ⊢
  rcases visible_cases h (unixMilli now') with hv | ⟨hv, -⟩
  · rw [hv]
    by_contra hlt
    obtain ⟨hshort, -⟩ := lt_of_tokensAt_lt hneed (not_le.1 hlt)
    -- so there is a hash, and it was there before
    cases h with
    | none => exact absurd hshort (not_lt.2 hneed)
    | some x =>
      have hthere : visible (some x) (unixMilli now) = some x := by
        rcases visible_cases (some x) (unixMilli now) with hv' | ⟨-, y, d, hy, hd, hout⟩
        · exact hv'
        · cases hy
          have hout' : d < unixMilli now' := lt_of_lt_of_le hout (unixMilli_mono hle)
          simp [visible, hd, not_le.2 hout'] at hv
      rw [hthere] at h'
      exact hlt (le_trans h' (tokensAt_mono (le_trans (le_of_lt hshort) hneed) hle))
  · rw [hv, tokensAt_parse_none]
    exact hneed

/-- A bucket that is short has a hash, which is there. -/
theorem exists_of_seen_lt (hneed : need ≤ b.capacity) (h' : seen b h now < need) :
    ∃ x, h = some x ∧ visible h (unixMilli now) = h := by
  rw [seen, found] at h'
  rcases visible_cases h (unixMilli now) with hv | ⟨hv, -⟩
  · cases h with
    | none => exact absurd h' (not_lt.2 (by rw [hv, tokensAt_parse_none]; exact hneed))
    | some x => exact ⟨x, rfl, hv⟩
  · rw [hv, tokensAt_parse_none] at h'
    exact absurd h' (not_lt.2 hneed)

/-- After the wait there is enough. -/
theorem le_seen_of_wait (hrefill : 0 < b.refill) (hneed : need ≤ b.capacity)
    (hshort : seen b h now < need)
    (hlate : now + b.waitFor (parseBucket b (visible h (unixMilli now)) now) now need < now') :
    need ≤ seen b h now' := by
  obtain ⟨x, rfl, hv⟩ := exists_of_seen_lt hneed hshort
  rw [seen, found, hv] at hshort
  rw [hv, add_waitFor hrefill hneed hshort] at hlate
  obtain ⟨hlt, -⟩ := lt_of_tokensAt_lt hneed hshort
  rw [seen, found]
  rcases visible_cases (some x) (unixMilli now') with hv' | ⟨hv', -⟩
  · rw [hv']
    exact le_tokensAt_of_ready_lt hrefill hneed hlt hlate
  · rw [hv', tokensAt_parse_none]
    exact hneed

/-- Before it is over there is not. -/
theorem seen_lt_of_wait (hk : Kept b h) (hrefill : 0 < b.refill) (hneed : need ≤ b.capacity)
    (hshort : seen b h now < need)
    (hearly : now' < now + b.waitFor (parseBucket b (visible h (unixMilli now)) now) now need) :
    seen b h now' < need := by
  obtain ⟨x, rfl, hv⟩ := exists_of_seen_lt hneed hshort
  rw [seen, found, hv] at hshort
  rw [hv, add_waitFor hrefill hneed hshort] at hearly
  obtain ⟨hlt, -⟩ := lt_of_tokensAt_lt hneed hshort
  rw [seen, found, tokensAt_visible hk hrefill]
  exact tokensAt_lt_of_lt_ready hlt hearly

end Bucket

/-! ## What a call asks for -/

variable {β η μ : Type} [DecidableEq β] [DecidableEq η] [DecidableEq μ]
variable (bucket : β → TokenBucket)

namespace Op

/-- The buckets that a call asks for tokens of. -/
def asks : Op β η μ → List β
  | .take bs | .reserve bs .. => bs
  | .prepay b n => if prepayable bucket b n ≤ 0 then [] else [b]
  | .commit .. | .release .. | .refund .. | .resync .. => []

/-- The live reservations of a bucket that a call counts. -/
def reserved (now : Int) (s : Store β η μ) : Op β η μ → β → Nat
  | .reserve bs _ _ _ live, b => (s.prune now bs live).held live b
  | _, _ => 0

/-- The tokens that it needs of a bucket. -/
def need (now : Int) (s : Store β η μ) : Op β η μ → β → ℚ
  | .take _, _ => 1
  | .prepay b n, _ => prepayable bucket b n
  | op, b => op.reserved now s b + 1

/-- The least wait that it says. -/
def least : Op β η μ → Int
  | .reserve .. => second
  | _ => millisecond

/-- What it returns if it is not refused. -/
def granted : Op β η μ → Int
  | .prepay b n => max 0 (prepayable bucket b n)
  | _ => 0

end Op

variable {bucket} {now now' w : Int} {s : Store β η μ} {op : Op β η μ}

omit [DecidableEq β] [DecidableEq η] [DecidableEq μ] in
theorem tokens_eq_seen (b : β) : s.tokens bucket now b = seen (bucket b) (s.budget b) now := rfl

/-- What a refused call says of the buckets it asks of: at least one is short, the wait is long
enough for each of these, and for a single one it is not longer, unless it is the least. -/
structure Refused (bucket : β → TokenBucket) (now : Int) (s : Store β η μ) (op : Op β η μ)
    (w : Int) : Prop where
  pos : 0 < w
  short : ∃ b ∈ op.asks bucket, s.tokens bucket now b < op.need bucket now s b
  enough : ∀ b ∈ op.asks bucket, s.tokens bucket now b < op.need bucket now s b →
    (bucket b).waitFor (s.read bucket now b) now (op.need bucket now s b) ≤ w
  exact : ∀ b, op.asks bucket = [b] → op.least < w →
    w = (bucket b).waitFor (s.read bucket now b) now (op.need bucket now s b)
  budget : (exec bucket now s op).1.budget = s.budget

/-- The comparison of `ReserveACME` is the same as the others. -/
theorem sub_held_lt_iff (b : β) (bs : List β) (node : η) (member : μ) (deadline : Int)
    (live : List η) :
    (bucket b).tokensAt (s.read bucket now b) now - ((s.prune now bs live).held live b : ℚ) < 1 ↔
      s.tokens bucket now b <
        (Op.reserve bs node member deadline live).need bucket now s b := by
  rw [sub_lt_iff_lt_add']
  rfl

theorem refused_of_exec (h : (exec bucket now s op).2 = .wait w) : Refused bucket now s op w := by
  cases op with
  | take bs =>
    simp only [exec] at h
    split at h <;> rename_i hpos
    · obtain rfl := Answer.wait.inj h
      refine ⟨hpos, (foldl_worse_pos_iff (by decide) bs).1 hpos,
        fun b hb hs => hint_le_foldl_worse hb hs, fun b hb hleast => ?_,
        by simp only [exec, if_pos hpos]⟩
      obtain rfl : bs = [b] := hb
      exact foldl_worse_singleton (by decide) hleast
    · cases h
  | prepay b n =>
    simp only [exec] at h
    split at h <;> rename_i hn
    · cases h
    split at h <;> rename_i hshort
    · obtain rfl := Answer.wait.inj h
      have hasks : (Op.prepay b n : Op β η μ).asks bucket = [b] := if_neg hn
      refine ⟨lt_max_of_lt_right (by decide), ⟨b, by simp [hasks], hshort⟩, fun c hc _ => ?_,
        fun c hc hleast => ?_,
        by simp only [exec, if_neg hn, if_pos hshort]⟩
      · obtain rfl : c = b := by simpa [hasks] using hc
        exact le_max_left _ _
      · obtain rfl : b = c := by simpa [hasks] using hc
        exact max_eq_left (le_of_lt ((lt_max_iff.1 hleast).resolve_right (lt_irrefl _)))
    · cases h
  | reserve bs node member deadline live =>
    simp only [exec] at h
    split at h <;> rename_i hbs
    · cases h
    split at h <;> rename_i hpos
    · obtain rfl := Answer.wait.inj h
      refine ⟨hpos, ?_, fun b hb hs => ?_, fun b hb hleast => ?_,
        by simp only [exec, if_neg hbs, if_pos hpos]; rfl⟩
      · obtain ⟨b, hb, hs⟩ := (foldl_worse_pos_iff (by decide) bs).1 hpos
        exact ⟨b, hb, (sub_held_lt_iff ..).1 hs⟩
      · exact hint_le_foldl_worse hb ((sub_held_lt_iff ..).2 hs)
      · obtain rfl : bs = [b] := hb
        exact foldl_worse_singleton (by decide) hleast
    · cases h
  | commit b node member => cases h
  | release bs node member => cases h
  | refund b n =>
    simp only [exec] at h
    split at h <;> cases h
  | resync bs retryAfter => cases h

/-- A call is not refused if every bucket it asks of has enough. -/
theorem exec_done (h : ∀ b ∈ op.asks bucket, op.need bucket now s b ≤ s.tokens bucket now b) :
    (exec bucket now s op).2 = .done (op.granted bucket) := by
  cases hans : (exec bucket now s op).2 with
  | wait w =>
    obtain ⟨b, hb, hlt⟩ := (refused_of_exec hans).short
    exact absurd (h b hb) (not_le.2 hlt)
  | done n =>
    congr 1
    cases op with
    | prepay b n =>
      simp only [exec, Op.granted] at hans ⊢
      split at hans <;> rename_i hn
      · obtain rfl := Answer.done.inj hans
        exact (max_eq_left hn).symm
      split at hans
      · cases hans
      · obtain rfl := Answer.done.inj hans
        exact (max_eq_right (le_of_lt (not_le.1 hn))).symm
    | take bs =>
      simp only [exec] at hans
      split at hans <;> cases hans
      rfl
    | reserve bs node member deadline live =>
      simp only [exec] at hans
      split at hans
      · cases hans
        rfl
      · split at hans <;> cases hans
        rfl
    | refund b n =>
      simp only [exec] at hans
      split at hans <;> cases hans <;> rfl
    | commit b node member | release bs node member | resync bs retryAfter =>
      cases hans
      rfl

/-- A call is refused if some bucket it asks of has too little. -/
theorem exec_wait {b : β} (hb : b ∈ op.asks bucket)
    (h : s.tokens bucket now b < op.need bucket now s b) :
    ∃ w, (exec bucket now s op).2 = .wait w := by
  cases hans : (exec bucket now s op).2 with
  | wait w => exact ⟨w, rfl⟩
  | done n =>
    exfalso
    cases op with
    | take bs =>
      simp only [exec] at hans
      split at hans <;> rename_i hpos
      · cases hans
      · exact hpos ((foldl_worse_pos_iff (by decide) bs).2 ⟨b, hb, h⟩)
    | prepay c n =>
      simp only [exec] at hans
      split at hans <;> rename_i hn
      · simp [Op.asks, hn] at hb
      obtain rfl : b = c := by simpa [Op.asks, hn] using hb
      split at hans <;> rename_i hshort
      · cases hans
      · exact hshort h
    | reserve bs node member deadline live =>
      simp only [exec] at hans
      split at hans <;> rename_i hbs
      · exact List.ne_nil_of_mem hb hbs
      split at hans <;> rename_i hpos
      · cases hans
      · exact hpos ((foldl_worse_pos_iff (by decide) bs).2 ⟨b, hb, (sub_held_lt_iff ..).2 h⟩)
    | commit | release | refund | resync => simp [Op.asks] at hb

/-- **The wait is right.**  A call that is refused with a wait, and needs no more than its buckets
hold, is granted if it is made again after the wait, with as many live reservations as before.  If
it asks of one bucket, and the wait is not the least there is, it is refused at any instant before
the wait is over. -/
theorem granted_after_wait (hrefill : ∀ b ∈ op.asks bucket, 0 < (bucket b).refill)
    (hfit : ∀ b ∈ op.asks bucket, op.need bucket now s b ≤ (bucket b).capacity)
    (hwait : (exec bucket now s op).2 = .wait w)
    (hsame : ∀ b ∈ op.asks bucket,
      op.reserved now' (exec bucket now s op).1 b = op.reserved now s b) :
    (now + w < now' →
      (exec bucket now' (exec bucket now s op).1 op).2 = .done (op.granted bucket)) ∧
    ∀ b, op.asks bucket = [b] → op.least < w → Kept (bucket b) (s.budget b) → now' < now + w →
      ∃ d, (exec bucket now' (exec bucket now s op).1 op).2 = .wait d := by
  have href := refused_of_exec hwait
  have hneed : ∀ b ∈ op.asks bucket,
      op.need bucket now' (exec bucket now s op).1 b = op.need bucket now s b := by
    intro b hb
    cases op with
    | take | prepay => rfl
    | reserve | commit | release | refund | resync =>
      have := hsame b hb
      simp only [Op.need, this]
  have hseen : ∀ b, (exec bucket now s op).1.tokens bucket now' b =
      seen (bucket b) (s.budget b) now' := by
    intro b
    rw [tokens_eq_seen, href.budget]
  refine ⟨fun hlate => exec_done fun b hb => ?_, fun b hb hleast hk hearly => ?_⟩
  · rw [hneed b hb, hseen]
    by_cases hshort : s.tokens bucket now b < op.need bucket now s b
    · have hle := href.enough b hb hshort
      exact le_seen_of_wait (hrefill b hb) (hfit b hb) hshort (by
        simp only [Store.read] at hle
        omega)
    · have hpos := href.pos
      exact le_seen_of_le (hfit b hb) (by omega) (not_lt.1 hshort)
  · have hmem : b ∈ op.asks bucket := by simp [hb]
    refine exec_wait hmem ?_
    rw [hneed b hmem, hseen]
    obtain ⟨c, hc, hcs⟩ := href.short
    obtain rfl : c = b := by simpa [hb] using hc
    rw [href.exact c hb hleast] at hearly
    exact seen_lt_of_wait hk (hrefill c hmem) (hfit c hmem) hcs hearly

/-- A bucket that holds two tokens and gains one in a second. -/
def slowBucket : Unit → TokenBucket := fun _ => ⟨2, second⟩

/-- It is a token in debt, and gains none for five seconds. -/
def inDebt : Store Unit Unit Unit := ⟨fun _ => some ⟨-1, 5000, some 3608000⟩, fun _ _ => .empty⟩

/-- A request at the epoch has to wait for seven seconds, to the nanosecond. -/
theorem granted_after_wait_in_debt :
    (exec slowBucket 0 inDebt (.take [()])).2 = .wait 7000000000 ∧
    (exec slowBucket 7000000001 (exec slowBucket 0 inDebt (.take [()])).1 (.take [()])).2 =
      .done 0 ∧
    ∃ d, (exec slowBucket 6999999999 (exec slowBucket 0 inDebt (.take [()])).1
      (.take [()])).2 = .wait d := by
  have hwait : (exec slowBucket 0 inDebt (.take [()])).2 = .wait 7000000000 := by decide +kernel
  have hkept : Kept (slowBucket ()) (inDebt.budget ()) := by
    have httl : formatMs (bucketTTL (slowBucket ()) ⟨-1, 5000000000⟩ 0) = 3608000 := by
      decide +kernel
    rintro x ⟨⟩
    exact ⟨⟨-1, 5000000000⟩, 0, 0, le_refl _, by rw [written, httl]; rfl⟩
  refine ⟨hwait, (granted_after_wait (by decide) (by decide +kernel) hwait fun _ _ => rfl).1
    (by decide), (granted_after_wait (by decide) (by decide +kernel) hwait fun _ _ => rfl).2 ()
    rfl (by decide) hkept (by decide)⟩

end Tunneld.AcmeBudget

import Mathlib.Data.List.Induction
import Mathlib.Data.List.Nodup

/-!
# Grouping by a key

A loop over a list that keeps a value for every key: the value of an element's key is made from the
value there was and the element (`group`).  What holds of the elements of a key and the value made
from them is shown for one element more (`of_mem_group`), and the groups have together as many
elements as the list (`total_length`).

Another loop keeps only neighbours together: it changes the last value if that is of the same group,
and starts a new one if not (`pushLast`).
-/

universe u v w

namespace Group

variable {α : Type u} {κ : Type v} {β : Type w}

section Loop

variable [DecidableEq κ]

/-- The value of a key, changed or new. -/
def put (k : κ) (f : Option β → β) : List (κ × β) → List (κ × β)
  | [] => [(k, f none)]
  | p :: m => if p.1 = k then (k, f (some p.2)) :: m else p :: put k f m

variable (key : α → κ) (upd : Option β → α → β)

def group (l : List α) : List (κ × β) := l.foldl (fun m a => put (key a) (fun o => upd o a) m) []

section Put

variable {k : κ} {f : Option β → β} {m : List (κ × β)}

theorem mem_keys_put {k' : κ} : k' ∈ (put k f m).map Prod.fst ↔ k' = k ∨ k' ∈ m.map Prod.fst := by
  induction m with
  | nil => simp [put]
  | cons p m ih =>
    rw [put]
    split
    · rename_i hp
      simp [hp]
    · rw [List.map_cons, List.mem_cons, ih, List.map_cons, List.mem_cons]
      exact or_left_comm

theorem nodup_put (h : (m.map Prod.fst).Nodup) : ((put k f m).map Prod.fst).Nodup := by
  induction m with
  | nil => simp [put]
  | cons p m ih =>
    rw [List.map_cons, List.nodup_cons] at h
    rw [put]
    split
    · rename_i hp
      exact List.nodup_cons.2 ⟨hp ▸ h.1, h.2⟩
    · rename_i hp
      exact List.nodup_cons.2 ⟨fun hmem => (mem_keys_put.1 hmem).elim hp h.1, ih h.2⟩

/-- A value is one there was, of another key, or has been made now. -/
theorem mem_put (h : (m.map Prod.fst).Nodup) {p : κ × β} (hp : p ∈ put k f m) :
    (p.1 ≠ k ∧ p ∈ m) ∨ (∃ v, (k, v) ∈ m ∧ p = (k, f (some v))) ∨
      (k ∉ m.map Prod.fst ∧ p = (k, f none)) := by
  induction m with
  | nil => exact .inr (.inr ⟨List.not_mem_nil, List.mem_singleton.1 hp⟩)
  | cons q m ih =>
    rw [List.map_cons, List.nodup_cons] at h
    rw [put] at hp
    split at hp
    · rename_i hq
      rcases List.mem_cons.1 hp with rfl | hmem
      · exact .inr (.inl ⟨q.2, by simp [← hq], rfl⟩)
      · exact .inl ⟨fun heq => h.1 (hq ▸ heq ▸ List.mem_map_of_mem hmem), .tail _ hmem⟩
    · rename_i hq
      rcases List.mem_cons.1 hp with rfl | hmem
      · exact .inl ⟨hq, List.mem_cons_self⟩
      · rcases ih h.2 hmem with ⟨hne, hmem⟩ | ⟨v, hv, heq⟩ | ⟨hnot, heq⟩
        · exact .inl ⟨hne, .tail _ hmem⟩
        · exact .inr (.inl ⟨v, .tail _ hv, heq⟩)
        · exact .inr (.inr ⟨by simpa [Ne.symm hq] using hnot, heq⟩)

end Put

theorem group_concat (l : List α) (a : α) : group key upd (l ++ [a]) =
    put (key a) (fun o => upd o a) (group key upd l) := by
  rw [group, List.foldl_append]
  rfl

theorem nodup_group (l : List α) : ((group key upd l).map Prod.fst).Nodup := by
  induction l using List.reverseRecOn with
  | nil => exact List.nodup_nil
  | append_singleton l a ih =>
    rw [group_concat]
    exact nodup_put ih

theorem mem_keys_group {l : List α} {k : κ} :
    k ∈ (group key upd l).map Prod.fst ↔ ∃ a ∈ l, key a = k := by
  induction l using List.reverseRecOn with
  | nil => simp [group]
  | append_singleton l a ih =>
    rw [group_concat, mem_keys_put, ih]
    simp [or_comm, or_and_right, exists_or, eq_comm]

/-- What holds of the elements of a key and their value, if it does with every element more. -/
theorem of_mem_group {P : κ → List α → β → Prop} (first : ∀ a, P (key a) [a] (upd none a))
    (next : ∀ l a v, P (key a) l v → P (key a) (l ++ [a]) (upd (some v) a)) {l : List α}
    {p : κ × β} (h : p ∈ group key upd l) : P p.1 (l.filter (key · = p.1)) p.2 := by
  induction l using List.reverseRecOn generalizing p with
  | nil => cases h
  | append_singleton l a ih =>
    rw [group_concat] at h
    rw [List.filter_append]
    rcases mem_put (nodup_group key upd l) h with ⟨hne, hp⟩ | ⟨v, hv, rfl⟩ | ⟨hnew, rfl⟩
    · rw [List.filter_cons_of_neg (by simpa using hne.symm), List.filter_nil, List.append_nil]
      exact ih hp
    · rw [List.filter_cons_of_pos (by simp), List.filter_nil]
      exact next _ a v (ih hv)
    · have hnil : l.filter (key · = key a) = [] := by
        refine List.filter_eq_nil_iff.2 fun b hb heq => hnew ?_
        exact (mem_keys_group key upd).2 ⟨b, hb, of_decide_eq_true heq⟩
      rw [List.filter_cons_of_pos (by simp), List.filter_nil, hnil]
      exact first a

end Loop

/-! ## Neighbours -/

/-- The last value is changed, after a new one has been added if it is not of the same group. -/
def pushLast (same : α → Bool) (new : α) (f : α → α) : List α → List α
  | [] => [f new]
  | [a] => if same a then [f a] else [a, f new]
  | a :: b :: l => a :: pushLast same new f (b :: l)

theorem flatMap_pushLast {same : α → Bool} {new : α} {f : α → α} {g : α → List β} {x : List β}
    (hnew : g (f new) = x) (hsame : ∀ a, same a = true → g (f a) = g a ++ x) (l : List α) :
    (pushLast same new f l).flatMap g = l.flatMap g ++ x := by
  fun_induction pushLast same new f l with
  | case1 => simp [hnew]
  | case2 a ha => simp [hsame a ha]
  | case3 a ha => simp [hnew]
  | case4 a b l ih => rw [List.flatMap_cons, ih, ← List.append_assoc, ← List.flatMap_cons]

/-! ## Adding up -/

def total (f : α → Int) (l : List α) : Int := l.foldr (fun a n => f a + n) 0

@[simp] theorem total_nil (f : α → Int) : total f [] = 0 := rfl

@[simp] theorem total_cons (f : α → Int) (a : α) (l : List α) :
    total f (a :: l) = f a + total f l := rfl

theorem total_map {γ : Type w} (f : β → Int) (g : γ → β) (l : List γ) :
    total f (l.map g) = total (fun a => f (g a)) l := by
  rw [total, List.foldr_map]
  rfl

theorem total_congr {f g : α → Int} {l : List α} (h : ∀ a ∈ l, f a = g a) :
    total f l = total g l := by
  induction l with
  | nil => rfl
  | cons a l ih =>
    obtain ⟨ha, hl⟩ := List.forall_mem_cons.1 h
    rw [total_cons, total_cons, ha, ih hl]

theorem total_perm {f : α → Int} {l m : List α} (h : l.Perm m) : total f l = total f m := by
  induction h with
  | nil => rfl
  | cons a _ ih => rw [total_cons, total_cons, ih]
  | swap a b l =>
    rw [total_cons, total_cons, total_cons, total_cons]
    omega
  | trans _ _ ih ih' => exact ih.trans ih'

/-! ## All groups -/

section Groups

variable [DecidableEq κ] {key : α → κ} {ks : List κ} {l : List α}

/-- Every element is in one group. -/
theorem perm_groups (hks : ks.Nodup) (h : ∀ a ∈ l, key a ∈ ks) :
    (ks.flatMap fun k => l.filter (key · = k)).Perm l := by
  induction ks generalizing l with
  | nil => rw [List.eq_nil_iff_forall_not_mem.2 fun a ha => List.not_mem_nil (h a ha)]; rfl
  | cons k ks ih =>
    obtain ⟨hk, hks⟩ := List.nodup_cons.1 hks
    have hrest : (ks.flatMap fun k' => l.filter (key · = k')) =
        ks.flatMap fun k' => (l.filter fun a => !decide (key a = k)).filter (key · = k') := by
      refine List.flatMap_congr fun k' hk' => ?_
      rw [List.filter_filter]
      refine List.filter_congr fun a _ => ?_
      by_cases ha : key a = k'
      · simpa [ha] using fun hkk' : k' = k => hk (hkk' ▸ hk')
      · simp [ha]
    rw [List.flatMap_cons, hrest]
    refine (List.Perm.append_left _ (ih hks fun a ha => ?_)).trans (List.filter_append_perm _ l)
    obtain ⟨hmem, hne⟩ := List.mem_filter.1 ha
    exact (List.mem_cons.1 (h a hmem)).resolve_left (by simpa using hne)

theorem total_length (hks : ks.Nodup) (h : ∀ a ∈ l, key a ∈ ks) :
    total (fun k => ((l.filter (key · = k)).length : Int)) ks = l.length := by
  rw [← (perm_groups hks h).length_eq]
  clear h hks
  induction ks with
  | nil => rfl
  | cons k ks ih =>
    rw [total_cons, ih, List.flatMap_cons, List.length_append]
    rfl

/-- A group is in the order of the list. -/
theorem filter_groups (hks : ks.Nodup) {k : κ} (hk : k ∈ ks) :
    (ks.flatMap fun k => l.filter (key · = k)).filter (key · = k) = l.filter (key · = k) := by
  have hgroup {k' : κ} (hne : k' ≠ k) : (l.filter (key · = k')).filter (key · = k) = [] := by
    refine List.filter_eq_nil_iff.2 fun a ha heq => hne ?_
    rw [← of_decide_eq_true heq, ← of_decide_eq_true (List.mem_filter.1 ha).2]
  induction ks with
  | nil => cases hk
  | cons k' ks ih =>
    obtain ⟨hk', hks⟩ := List.nodup_cons.1 hks
    rw [List.flatMap_cons, List.filter_append]
    rcases List.mem_cons.1 hk with rfl | hk
    · rw [List.filter_filter, List.filter_flatMap, List.flatMap_eq_nil_iff.2, List.append_nil]
      · simp
      · exact fun k' hmem => hgroup fun heq => hk' (heq ▸ hmem)
    · have hne : k' ≠ k := fun heq => hk' (heq ▸ hk)
      rw [hgroup hne, ih hks hk, List.nil_append]

end Groups

end Group

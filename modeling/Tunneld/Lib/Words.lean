import Mathlib.Data.List.DropRight

/-!
# Words and blanks

Text as characters, with `unicode.IsSpace`, `strings.TrimSpace` and `strings.Fields`.

## Main results

* `trimSpace_append`, `eq_trimSpace_append`: what is trimmed behind a word, and that it is blank;
* `fields_trimSpace`: trimming makes no difference to the fields;
* `fields_eq_cons_iff`, `fields_eq_pair_iff`: the fields of a text, by what the text is made of.
-/

namespace Words

/-- Text, in characters. -/
abbrev Text := List Char

/-- `unicode.IsSpace`. -/
def isSpace (c : Char) : Bool :=
  c.toNat ∈ [0x09, 0x0A, 0x0B, 0x0C, 0x0D, 0x20, 0x85, 0xA0, 0x1680, 0x2028, 0x2029, 0x202F, 0x205F,
    0x3000] ∨ 0x2000 ≤ c.toNat ∧ c.toNat ≤ 0x200A

/-- `strings.TrimSpace`. -/
def trimSpace (l : Text) : Text :=
  ((l.dropWhile isSpace).reverse.dropWhile isSpace).reverse

/-- `strings.Fields`. -/
def fields (l : Text) : List Text := (l.splitOnP isSpace).filter (· ≠ [])

/-- Something, and no blanks. -/
def IsWord (w : Text) : Prop := w ≠ [] ∧ ∀ c ∈ w, isSpace c = false

variable {l w space rest : Text} {ws : List Text}

/-! ## Trimming -/

theorem trimSpace_append (hw : ∀ c ∈ w, isSpace c = false) (h : space.all isSpace) :
    trimSpace (w ++ space) = w := by
  have hspace : ∀ c ∈ space.reverse, isSpace c = true := fun c hc =>
    List.all_eq_true.1 h c (List.mem_reverse.1 hc)
  have hkeep : ∀ l : Text, (∀ c ∈ l, isSpace c = false) → l.dropWhile isSpace = l := by
    intro l hl
    cases l with
    | nil => rfl
    | cons c l => exact List.dropWhile_cons_of_neg (by simp [hl c List.mem_cons_self])
  rw [trimSpace]
  cases w with
  | nil =>
    rw [List.nil_append, List.dropWhile_eq_nil_iff.2 fun c hc => List.all_eq_true.1 h c hc]
    rfl
  | cons c w =>
    rw [List.cons_append, List.dropWhile_cons_of_neg (by simp [hw c List.mem_cons_self]),
      ← List.cons_append, List.reverse_append, List.dropWhile_append_of_pos hspace,
      hkeep _ fun d hd => hw d (List.mem_reverse.1 hd), List.reverse_reverse]

theorem trimSpace_head {c : Char} (h : c ∈ (trimSpace l).head?) : isSpace c = false := by
  have hprefix : trimSpace l <+: l.dropWhile isSpace := List.rdropWhile_prefix isSpace _
  obtain ⟨t, ht⟩ := List.head?_eq_some_iff.1 h
  obtain ⟨r, hr⟩ := ht ▸ hprefix
  have hhead := List.head?_dropWhile_not isSpace l
  rw [← hr] at hhead
  simpa using hhead

/-- Nothing but blanks is cut off. -/
theorem eq_append_trimSpace_append (l : Text) :
    ∃ before after : Text, before.all isSpace ∧ after.all isSpace ∧
      l = before ++ (trimSpace l ++ after) := by
  refine ⟨l.takeWhile isSpace, (l.dropWhile isSpace).rtakeWhile isSpace, ?_, ?_, ?_⟩
  · exact List.all_takeWhile
  · exact List.all_eq_true.2 fun c hc => List.mem_rtakeWhile_imp hc
  · have htail : trimSpace l ++ (l.dropWhile isSpace).rtakeWhile isSpace = l.dropWhile isSpace :=
      List.rdropWhile_append_rtakeWhile
    rw [htail, List.takeWhile_append_dropWhile]

/-- Of a text that does not start with a blank, only the end is. -/
theorem eq_trimSpace_append (hw : ∀ c ∈ w.head?, isSpace c = false) :
    ∃ space : Text, space.all isSpace ∧ w = trimSpace w ++ space := by
  obtain ⟨before, after, hbefore, hafter, heq⟩ := eq_append_trimSpace_append w
  cases before with
  | nil => exact ⟨after, hafter, heq⟩
  | cons c before =>
    have hc : isSpace c = true := List.all_eq_true.1 hbefore c List.mem_cons_self
    rw [hw c (by rw [heq]; rfl)] at hc
    cases hc

/-! ## Fields -/

theorem fields_blank_append (h : space.all isSpace) (l : Text) :
    fields (space ++ l) = fields l := by
  induction space with
  | nil => rfl
  | cons c space ih =>
    rw [List.all_cons, Bool.and_eq_true] at h
    have hcons : fields (c :: (space ++ l)) = fields (space ++ l) := by
      simp [fields, List.splitOnP_cons_eq_if_modifyHead, h.1]
    rw [List.cons_append, hcons, ih h.2]

theorem fields_blank (h : space.all isSpace) : fields space = [] := by
  have hnil := fields_blank_append h []
  rwa [List.append_nil] at hnil

theorem fields_append_blank (l : Text) (h : space.all isSpace) :
    fields (l ++ space) = fields l := by
  cases space with
  | nil => rw [List.append_nil]
  | cons c space =>
    rw [List.all_cons, Bool.and_eq_true] at h
    have hrest : (space.splitOnP isSpace).filter (· ≠ []) = [] := fields_blank h.2
    rw [fields, List.splitOnP_append_cons l space h.1, List.filter_append, hrest, List.append_nil]
    rfl

theorem fields_trimSpace (l : Text) : fields (trimSpace l) = fields l := by
  obtain ⟨before, after, hbefore, hafter, heq⟩ := eq_append_trimSpace_append l
  conv_rhs => rw [heq]
  rw [fields_blank_append hbefore, fields_append_blank _ hafter]

/-- A word that is followed by a blank, or by nothing, is a field. -/
theorem fields_word_append (hw : IsWord w) (hrest : ∀ c ∈ rest.head?, isSpace c = true) :
    fields (w ++ rest) = w :: fields rest := by
  cases rest with
  | nil => simp [fields, List.splitOnP_eq_singleton hw.2, hw.1]
  | cons c rest =>
    have hc : isSpace c = true := hrest c rfl
    have hspace : [c].all isSpace := by simp [hc]
    have hblank := fields_blank_append hspace rest
    rw [List.singleton_append] at hblank
    rw [hblank, fields, List.splitOnP_append_cons_of_forall_mem hw.2 c hc, List.filter_cons_of_pos]
    · rfl
    · simpa using hw.1

/-- A text that is not blank starts with a field, after some blanks. -/
theorem exists_word (h : ¬ l.all isSpace) : ∃ space w rest, l = space ++ (w ++ rest) ∧
    space.all isSpace ∧ IsWord w ∧ ∀ c ∈ rest.head?, isSpace c = true := by
  refine ⟨l.takeWhile isSpace, (l.dropWhile isSpace).takeWhile (!isSpace ·),
    (l.dropWhile isSpace).dropWhile (!isSpace ·), ?_, List.all_takeWhile, ⟨fun hnil => h ?_, ?_⟩, ?_⟩
  · rw [List.takeWhile_append_dropWhile, List.takeWhile_append_dropWhile]
  · -- without a word there is nothing behind the blanks
    cases hd : l.dropWhile isSpace with
    | nil => exact List.all_eq_true.2 (List.dropWhile_eq_nil_iff.1 hd)
    | cons c t =>
      have hhead := List.head?_dropWhile_not isSpace l
      rw [hd] at hhead hnil
      simp only [List.head?_cons] at hhead
      rw [List.takeWhile_cons_of_pos (by simpa using hhead)] at hnil
      cases hnil
  · intro c hc
    simpa using List.mem_takeWhile_imp hc
  · intro c hc
    have hhead := List.head?_dropWhile_not (!isSpace ·) (l.dropWhile isSpace)
    rw [Option.mem_def.1 hc] at hhead
    simpa using hhead

theorem fields_eq_nil_iff : fields l = [] ↔ l.all isSpace := by
  refine ⟨fun h => ?_, fields_blank⟩
  by_contra hl
  obtain ⟨space, w, rest, rfl, hspace, hw, hrest⟩ := exists_word hl
  rw [fields_blank_append hspace, fields_word_append hw hrest] at h
  cases h

theorem fields_eq_cons_iff : fields l = w :: ws ↔ ∃ space rest, l = space ++ (w ++ rest) ∧
    space.all isSpace ∧ IsWord w ∧ (∀ c ∈ rest.head?, isSpace c = true) ∧ fields rest = ws := by
  constructor
  · intro h
    have hl : ¬ l.all isSpace := by
      intro hl
      rw [fields_blank hl] at h
      cases h
    obtain ⟨space, w', rest, rfl, hspace, hw, hrest⟩ := exists_word hl
    rw [fields_blank_append hspace, fields_word_append hw hrest] at h
    cases h
    exact ⟨space, rest, rfl, hspace, hw, hrest, rfl⟩
  · rintro ⟨space, rest, rfl, hspace, hw, hrest, rfl⟩
    rw [fields_blank_append hspace, fields_word_append hw hrest]

/-- Two fields: a text with two words in it. -/
theorem fields_eq_pair_iff {a b : Text} : fields l = [a, b] ↔ ∃ before between after,
    l = before ++ (a ++ (between ++ (b ++ after))) ∧ before.all isSpace ∧ IsWord a ∧
      between.all isSpace ∧ between ≠ [] ∧ IsWord b ∧ after.all isSpace := by
  constructor
  · intro h
    obtain ⟨before, rest, rfl, hbefore, ha, hrest, h⟩ := fields_eq_cons_iff.1 h
    obtain ⟨between, after, rfl, hbetween, hb, -, h⟩ := fields_eq_cons_iff.1 h
    refine ⟨before, between, after, rfl, hbefore, ha, hbetween, ?_, hb, fields_eq_nil_iff.1 h⟩
    -- otherwise the second word starts with a blank
    rintro rfl
    obtain ⟨hne, hwords⟩ := hb
    cases b with
    | nil => exact hne rfl
    | cons c b =>
      have hc := hrest c rfl
      rw [hwords c List.mem_cons_self] at hc
      cases hc
  · rintro ⟨before, between, after, rfl, hbefore, ha, hbetween, hne, hb, hafter⟩
    refine fields_eq_cons_iff.2 ⟨before, _, rfl, hbefore, ha, ?_, fields_eq_cons_iff.2
      ⟨between, after, rfl, hbetween, hb, ?_, fields_blank hafter⟩⟩
    · cases between with
      | nil => exact absurd rfl hne
      | cons c between =>
        rintro d ⟨⟩
        exact List.all_eq_true.1 hbetween c List.mem_cons_self
    · exact fun c hc => List.all_eq_true.1 hafter c (List.mem_of_mem_head? hc)

end Words

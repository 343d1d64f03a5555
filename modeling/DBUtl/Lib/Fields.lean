import Mathlib.Data.List.SplitBy

/-!
# The fields of a delimited text

A text is cut at the elements that are delimiters. Every field but the last is ended by a
delimiter, the last by the end of the text, for which `stop` stands; a last field that is empty
does not count, so that a text may end with a delimiter.

* `fields_of_forall` and `fields_append` — the fields of a text, from its first field on: what
  a reader that goes field by field sees.
* `map_fst_fields` — without what ended them, the fields are those of `List.splitOnP`.
* `splitOnP_intercalate` — and those of a text that was joined are what it was joined from.
* `groupsOf` — fields are grouped by what ended them; `groupsOf_cons_of_break` and
  `groupsOf_cons_cons` give the groups of a list from those of its tail.
-/

namespace DBUtl

variable {α β : Type*}

/-- Drop the last element of a list if it satisfies `q`. -/
def dropLastIf (q : α → Bool) (l : List α) : List α :=
  if l.getLast?.any q then l.dropLast else l

theorem dropLastIf_cons (q : α → Bool) (x : α) {l : List α} (hl : l ≠ []) :
    dropLastIf q (x :: l) = x :: dropLastIf q l := by
  simp only [dropLastIf, List.getLast?_cons_of_ne_nil hl]
  split_ifs
  · exact List.dropLast_cons_of_ne_nil hl
  · rfl

theorem dropLastIf_of_getLast {q : α → Bool} {l : List α} (h : ∀ x ∈ l.getLast?, q x = false) :
    dropLastIf q l = l := by
  have hany : l.getLast?.any q = false := by
    rcases hlast : l.getLast? with _ | x
    · rfl
    · exact h x hlast
  simp [dropLastIf, hany]

theorem map_dropLastIf (f : α → β) (q : β → Bool) (l : List α) :
    (dropLastIf (fun x => q (f x)) l).map f = dropLastIf q (l.map f) := by
  simp only [dropLastIf, List.getLast?_map, Option.any_map]
  split_ifs
  · exact List.map_dropLast
  · rfl

theorem mem_intercalate {d x : α} :
    ∀ {ls : List (List α)}, x ∈ [d].intercalate ls → x = d ∨ ∃ l ∈ ls, x ∈ l
  | [], h => by simp at h
  | [l], h => Or.inr ⟨l, List.mem_cons_self, by simpa using h⟩
  | l :: l' :: ls, h => by
    rw [List.intercalate_cons_cons, List.append_assoc, List.mem_append, List.singleton_append,
      List.mem_cons] at h
    rcases h with h | rfl | h
    · exact Or.inr ⟨l, List.mem_cons_self, h⟩
    · exact Or.inl rfl
    · rcases mem_intercalate h with h | ⟨k, hk, h⟩
      · exact Or.inl h
      · exact Or.inr ⟨k, List.mem_cons_of_mem l hk, h⟩

/-! ## Fields -/

/-- The fields of a text, each with what ended it. -/
def fields (p : α → Bool) (stop : α) (w : List α) : List (List α × α) :=
  dropLastIf (fun f => f.1.isEmpty) ((w.splitOnP p).zip (w.filter p ++ [stop]))

section Fields

variable {p : α → Bool} {stop : α}

/-- There is a delimiter for every field but the last. -/
theorem length_splitOnP (w : List α) : (w.splitOnP p).length = (w.filter p).length + 1 := by
  induction w with
  | nil => simp
  | cons x w ih =>
    rw [List.splitOnP_cons_eq_if_modifyHead]
    by_cases hx : p x
    · simp [hx, ih]
    · simp [hx, ih]

/-- A text that was joined is cut into what it was joined from. -/
theorem splitOnP_intercalate {d : α} (hd : p d = true) :
    ∀ {ls : List (List α)}, ls ≠ [] → (∀ l ∈ ls, ∀ x ∈ l, p x = false) →
      ([d].intercalate ls).splitOnP p = ls
  | [], hne, _ => absurd rfl hne
  | [l], _, h => by
    rw [List.intercalate_singleton]
    exact List.splitOnP_eq_singleton (h l List.mem_cons_self)
  | l :: l' :: ls, _, h => by
    have ih := splitOnP_intercalate hd (List.cons_ne_nil l' ls)
      fun k hk => h k (List.mem_cons_of_mem l hk)
    rw [List.intercalate_cons_cons, List.append_assoc, List.singleton_append,
      List.splitOnP_append_cons_of_forall_mem (h l List.mem_cons_self) d hd, ih]

/-- Without what ended them, the fields are the parts between the delimiters. -/
theorem map_fst_fields (w : List α) :
    (fields p stop w).map Prod.fst = dropLastIf List.isEmpty (w.splitOnP p) := by
  rw [fields, map_dropLastIf Prod.fst List.isEmpty, List.map_fst_zip (by simp [length_splitOnP])]

/-- A text without delimiters is one field, or none. -/
theorem fields_of_forall {w : List α} (h : ∀ x ∈ w, p x = false) :
    fields p stop w = if w = [] then [] else [(w, stop)] := by
  have hfilter : w.filter p = [] := by simpa using h
  rw [fields, List.splitOnP_eq_singleton h, hfilter]
  by_cases hw : w = []
  · simp [dropLastIf, hw]
  · simp [dropLastIf, hw]

/-- A text with a delimiter has the field up to it, and the fields of the rest. -/
theorem fields_append {f : List α} (h : ∀ x ∈ f, p x = false) {d : α} (hd : p d = true)
    (w : List α) : fields p stop (f ++ d :: w) = (f, d) :: fields p stop w := by
  have hfilter : (f ++ d :: w).filter p = d :: w.filter p := by
    rw [List.filter_append, List.filter_eq_nil_iff.2 (by simpa using h), List.filter_cons_of_pos hd,
      List.nil_append]
  have hne : (w.splitOnP p).zip (w.filter p ++ [stop]) ≠ [] := by
    simp [List.zip_eq_nil_iff, List.splitOnP_ne_nil]
  rw [fields, List.splitOnP_append_cons_of_forall_mem h d hd, hfilter, List.cons_append,
    List.zip_cons_cons, dropLastIf_cons _ _ hne, fields]

end Fields

/-! ## Groups -/

section Groups

variable {brk : α → Bool}

/-- Put elements in one group until one that breaks. -/
def groupsOf (brk : α → Bool) (l : List α) : List (List α) := l.splitBy fun x _ => !brk x

theorem groupsOf_cons_of_break {x : α} {l : List α} (h : brk x = true ∨ l = []) :
    groupsOf brk (x :: l) = [x] :: groupsOf brk l := by
  rw [groupsOf, ← List.singleton_append, List.splitBy_append]
  · rfl
  · intro y hy z hz
    obtain rfl : x = y := by simpa using hy
    rcases h with h | rfl
    · simp [h]
    · simp at hz

/-- An element that does not break joins the group after it. -/
theorem groupsOf_cons_cons {x y : α} {l g : List α} {gs : List (List α)} (hx : brk x = false)
    (h : groupsOf brk (y :: l) = (y :: g) :: gs) :
    groupsOf brk (x :: y :: l) = (x :: y :: g) :: gs := by
  rw [groupsOf, List.splitBy_eq_iff] at h ⊢
  obtain ⟨hflat, hnil, hchain, hbreaks⟩ := h
  refine ⟨?_, ?_, ?_, ?_⟩
  · simpa using hflat
  · simpa using hnil
  · intro m hm
    rcases List.mem_cons.1 hm with rfl | hm
    · exact List.isChain_cons_cons.2 ⟨by simp [hx], hchain _ List.mem_cons_self⟩
    · exact hchain m (List.mem_cons_of_mem _ hm)
  · rw [List.isChain_cons] at hbreaks ⊢
    refine ⟨fun m hm => ?_, hbreaks.2⟩
    obtain ⟨_, hb, hlast⟩ := hbreaks.1 m hm
    exact ⟨List.cons_ne_nil _ _, hb, by simpa using hlast⟩

theorem flatten_groupsOf (brk : α → Bool) (l : List α) : (groupsOf brk l).flatten = l :=
  List.flatten_splitBy _ l

theorem ne_nil_of_mem_groupsOf {l g : List α} (h : g ∈ groupsOf brk l) : g ≠ [] :=
  List.ne_nil_of_mem_splitBy h

theorem exists_groupsOf_cons (brk : α → Bool) (x : α) (l : List α) :
    ∃ g gs, groupsOf brk (x :: l) = (x :: g) :: gs := by
  have hflat := flatten_groupsOf brk (x :: l)
  rcases hG : groupsOf brk (x :: l) with _ | ⟨_ | ⟨y, g⟩, gs⟩
  · simp [hG] at hflat
  · exact absurd rfl (ne_nil_of_mem_groupsOf (hG ▸ List.mem_cons_self))
  · rw [hG, List.flatten_cons, List.cons_append] at hflat
    exact ⟨g, gs, by rw [(List.cons.inj hflat).1]⟩

/-- **Where a group begins**: behind the elements that break, and nowhere else. -/
theorem group_begins_iff {l : List α} {k : ℕ} (hk : k + 1 < l.length) :
    (∃ q < (groupsOf brk l).length, ((groupsOf brk l).take q).flatten.length = k + 1) ↔
      brk l[k] = true := by
  induction l generalizing k with
  | nil => simp at hk
  | cons x l ih =>
    have hl : k < l.length := by simpa using hk
    have hne : l ≠ [] := List.ne_nil_of_length_pos (Nat.zero_lt_of_lt hl)
    obtain ⟨y, l, rfl⟩ := List.exists_cons_of_ne_nil hne
    obtain ⟨g, gs, hG⟩ := exists_groupsOf_cons brk y l
    by_cases hx : brk x = true
    · rw [groupsOf_cons_of_break (Or.inl hx)]
      cases k with
      | zero => exact ⟨fun _ => hx, fun _ => ⟨1, by simp [hG], by simp⟩⟩
      | succ k =>
        rw [List.getElem_cons_succ, ← ih hl]
        constructor
        · rintro ⟨_ | q, hq, hlen⟩
          · simp at hlen
          · exact ⟨q, by simpa using hq, by simpa [Nat.add_comm 1] using hlen⟩
        · rintro ⟨q, hq, hlen⟩
          exact ⟨q + 1, by simpa using hq, by simp [hlen]⟩
    · have hx : brk x = false := by simpa using hx
      rw [groupsOf_cons_cons hx hG]
      cases k with
      | zero =>
        refine ⟨?_, fun h => by simp [hx] at h⟩
        rintro ⟨_ | q, hq, hlen⟩
        · simp at hlen
        · simp at hlen
      | succ k =>
        rw [List.getElem_cons_succ, ← ih hl, hG]
        constructor
        · rintro ⟨_ | q, hq, hlen⟩
          · simp at hlen
          · exact ⟨q + 1, by simpa using hq, by simp at hlen ⊢; omega⟩
        · rintro ⟨_ | q, hq, hlen⟩
          · simp at hlen
          · exact ⟨q + 1, by simpa using hq, by simp at hlen ⊢; omega⟩

end Groups

end DBUtl

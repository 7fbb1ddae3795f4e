import ExprText.Proofs.Names.Table

/-! # Unique names

A table that has taken the explicit names of a graph and then answers questions about what occurs in
it stays sound: a generated name is neither an explicit name of the graph nor the name of anything
else. Names that are given are never changed, so this holds of all answers of a run at once. -/

namespace ExprText

/-! ### Explicit names -/

theorem Expr.mem_explicitNames {e : Expr} {r : NameRequest} {n : String} (hr : r ∈ e.requests)
    (hn : r.explicit? = some n) : n ∈ e.explicitNames := by
  cases e with
  | «variable» _ target =>
    obtain rfl := List.mem_singleton.mp hr
    simp only [NameRequest.explicit?] at hn
    simp [explicitNames, hn]
  | lambda _ params | block _ params =>
    obtain ⟨v, hv, rfl⟩ := List.mem_map.mp hr
    exact List.mem_filterMap.mpr ⟨v, hv, hn⟩
  | constant _ value =>
    cases value with
    | captured object =>
      obtain rfl := List.mem_singleton.mp hr
      cases hn
    | _ => simp [requests] at hr
  | member _ subject target =>
    cases subject with
    | none => simp [requests] at hr
    | some subject =>
      cases hc : subject.captured? with
      | none => simp [requests, hc] at hr
      | some object =>
        obtain rfl : r = .capturedMember object target.name := by simpa [requests, hc] using hr
        simp only [NameRequest.explicit?] at hn
        split at hn
        · cases hn
        · cases hn
          simp [explicitNames, isCaptured, *]
  | _ => simp [requests] at hr

theorem Expr.Mentions.mem_reserved {root : Expr} {r : NameRequest} {n : String}
    (hr : root.Mentions r) (hn : r.explicit? = some n) :
    n ∈ (({} : NameTable).reserve root).taken := by
  obtain ⟨e, he, hr⟩ := hr
  exact List.mem_append_left _ (List.mem_flatMap.mpr ⟨e, he, mem_explicitNames hr hn⟩)

namespace NameTable

/-! ### What a table has given -/

/-- Whether every name that a table has given is still given by a later one. -/
def Extends (t u : NameTable) : Prop :=
  ∀ k n, t.assigned.lookup k = some n → u.assigned.lookup k = some n

theorem Extends.refl (t : NameTable) : t.Extends t :=
  fun _ _ h => h

theorem Extends.trans {t u w : NameTable} (h : t.Extends u) (h' : u.Extends w) : t.Extends w :=
  fun k n hn => h' k n (h k n hn)

theorem extends_cons {t : NameTable} {k : NameKey} (hk : t.assigned.lookup k = none) (n : String)
    (taken : List String) : t.Extends { assigned := (k, n) :: t.assigned, taken } := by
  intro l m hm
  rw [lookup_cons_eq, if_neg]
  · exact hm
  · rintro rfl
    rw [hk] at hm
    cases hm

/-- The name that a table stands by: the explicit one, or the one that it has given. -/
def Gives (t : NameTable) (r : NameRequest) (n : String) : Prop :=
  match r.explicit? with
  | some m => n = m
  | none => t.assigned.lookup r.key = some n

theorem Gives.mono {t u : NameTable} {r : NameRequest} {n : String} (h : t.Gives r n)
    (hu : t.Extends u) : u.Gives r n := by
  unfold Gives at h ⊢
  split at h
  · exact h
  · exact hu _ _ h

theorem gives_generated {t : NameTable} {r : NameRequest} {n : String} (hr : r.explicit? = none) :
    t.Gives r n ↔ t.assigned.lookup r.key = some n := by
  rw [Gives, hr]

theorem Gives.unique {t : NameTable} {r : NameRequest} {m n : String} (hm : t.Gives r m)
    (hn : t.Gives r n) : m = n := by
  unfold Gives at hm hn
  cases hex : r.explicit? with
  | some given =>
    rw [hex] at hm hn
    rw [hm, hn]
  | none =>
    simp only [hex] at hm hn
    rw [hm] at hn
    exact Option.some.inj hn

/-! ### Sound tables -/

/-- What holds of every table that has answered questions about one graph only. -/
structure Sound (root : Expr) (t : NameTable) : Prop where
  explicitTaken : ∀ r n, root.Mentions r → r.explicit? = some n → n ∈ t.taken
  givenTaken : ∀ k n, t.assigned.lookup k = some n → n ∈ t.taken
  /-- An explicit variable is given no other name. -/
  explicitGiven : ∀ v n m, root.Mentions (.variable v) → v.explicitName? = some n →
    t.assigned.lookup (.variable v.id) = some m → m = n
  notKeyword : ∀ r n, root.Mentions r → r.explicit? = none → t.assigned.lookup r.key = some n →
    Name.isKeyword n = false
  /-- A generated name is no explicit one. -/
  apart : ∀ r n, root.Mentions r → r.explicit? = none → t.assigned.lookup r.key = some n →
    ∀ q, root.Mentions q → q.explicit? ≠ some n
  /-- A generated name is given once. -/
  once : ∀ r n, root.Mentions r → r.explicit? = none → t.assigned.lookup r.key = some n →
    ∀ k, t.assigned.lookup k = some n → k = r.key

theorem sound_reserve (root : Expr) : (({} : NameTable).reserve root).Sound root where
  explicitTaken _ _ hr hn := hr.mem_reserved hn
  givenTaken _ _ h := by simp [reserve] at h
  explicitGiven _ _ _ _ _ h := by simp [reserve] at h
  notKeyword _ _ _ _ h := by simp [reserve] at h
  apart _ _ _ _ h := by simp [reserve] at h
  once _ _ _ _ h := by simp [reserve] at h

section Answer
variable {root : Expr} {t : NameTable} {r : NameRequest}

theorem Sound.variable_new (h : t.Sound root) (hc : root.Coherent) {v : Variable} {n : String}
    (hv : root.Mentions (.variable v)) (hn : v.explicitName? = some n) :
    Sound root { assigned := (.variable v.id, n) :: t.assigned, taken := n :: t.taken } := by
  -- The key belongs to a variable with an explicit name, so no generated name is looked up by it.
  have generated : ∀ q m, root.Mentions q → q.explicit? = none →
      ((NameKey.variable v.id, n) :: t.assigned).lookup q.key = some m →
      t.assigned.lookup q.key = some m := by
    intro q m hq hq' hm
    rw [lookup_cons_eq] at hm
    split at hm
    · obtain rfl := hc.name q (.variable v) hq hv ‹_›
      simp only [NameRequest.explicit?, hn] at hq'
      cases hq'
    · exact hm
  refine ⟨?_, ?_, ?_, ?_, ?_, ?_⟩
  · exact fun q m hq hm => List.mem_cons_of_mem _ (h.explicitTaken q m hq hm)
  · intro k m hm
    rw [lookup_cons_eq] at hm
    split at hm
    · cases hm
      exact List.mem_cons_self
    · exact List.mem_cons_of_mem _ (h.givenTaken k m hm)
  · intro w m m' hw hm hm'
    rw [lookup_cons_eq] at hm'
    split at hm'
    · obtain ⟨rfl⟩ := hc.name (.variable w) (.variable v) hw hv ‹_›
      cases hm'
      rw [hn] at hm
      exact Option.some.inj hm
    · exact h.explicitGiven w m m' hw hm hm'
  · exact fun q m hq hq' hm => h.notKeyword q m hq hq' (generated q m hq hq' hm)
  · exact fun q m hq hq' hm => h.apart q m hq hq' (generated q m hq hq' hm)
  · intro q m hq hq' hm k hk
    have hm := generated q m hq hq' hm
    rw [lookup_cons_eq] at hk
    split at hk
    · cases hk
      exact absurd hn (h.apart q _ hq hq' hm (.variable v) hv)
    · exact h.once q m hq hq' hm k hk

theorem Sound.generated_new (h : t.Sound root) (hc : root.Coherent) (hr : root.Mentions r)
    (hgen : r.explicit? = none) {n : String} (hfree : n ∉ t.taken)
    (hkey : Name.isKeyword n = false) :
    Sound root { assigned := (r.key, n) :: t.assigned, taken := n :: t.taken } := by
  refine ⟨?_, ?_, ?_, ?_, ?_, ?_⟩
  · exact fun q m hq hm => List.mem_cons_of_mem _ (h.explicitTaken q m hq hm)
  · intro k m hm
    rw [lookup_cons_eq] at hm
    split at hm
    · cases hm
      exact List.mem_cons_self
    · exact List.mem_cons_of_mem _ (h.givenTaken k m hm)
  · intro v m m' hv hm hm'
    rw [lookup_cons_eq] at hm'
    split at hm'
    · obtain rfl := hc.name (.variable v) r hv hr ‹_›
      simp only [NameRequest.explicit?, hm] at hgen
      cases hgen
    · exact h.explicitGiven v m m' hv hm hm'
  · intro q m hq hq' hm
    rw [lookup_cons_eq] at hm
    split at hm
    · cases hm
      exact hkey
    · exact h.notKeyword q m hq hq' hm
  · intro q m hq hq' hm p hp hpm
    rw [lookup_cons_eq] at hm
    split at hm
    · cases hm
      exact hfree (h.explicitTaken p n hp hpm)
    · exact h.apart q m hq hq' hm p hp hpm
  · intro q m hq hq' hm k hk
    rw [lookup_cons_eq] at hm hk
    split at hm <;> split at hk
    · rw [‹k = r.key›, ‹q.key = r.key›]
    · cases hm
      exact absurd (h.givenTaken k n hk) hfree
    · cases hk
      exact absurd (h.givenTaken q.key n hm) hfree
    · exact h.once q m hq hq' hm k hk

/-- One question: the table stays sound, keeps what it gave and stands by its answer. -/
theorem Sound.answer (h : t.Sound root) (hc : root.Coherent) (hr : root.Mentions r) :
    (t.answer r).2.Sound root ∧ t.Extends (t.answer r).2 ∧ (t.answer r).2.Gives r (t.answer r).1 := by
  cases hex : r.explicit? with
  | none =>
    rw [gives_generated hex]
    cases hl : t.assigned.lookup r.key with
    | some given =>
      rw [answer_generated_known hex hl]
      exact ⟨h, .refl t, hl⟩
    | none =>
      rw [answer_generated_new hex hl]
      refine ⟨?_, extends_cons hl _ _, ?_⟩
      · exact h.generated_new hc hr hex (freeName_cases _ _).1 (isKeyword_freeName _ r)
      · rw [lookup_cons_eq, if_pos rfl]
  | some n =>
    rw [Gives, hex]
    cases r with
    | captured object => cases hex
    | capturedMember object member =>
      rw [answer_member hex]
      exact ⟨h, .refl t, rfl⟩
    | «variable» v =>
      cases hl : t.assigned.lookup (.variable v.id) with
      | some given =>
        rw [answer_variable_known hex hl]
        exact ⟨h, .refl t, h.explicitGiven v n given hr hex hl⟩
      | none =>
        rw [answer_variable_new hex hl]
        exact ⟨h.variable_new hc hr hex, extends_cons hl _ _, rfl⟩

end Answer

/-! ### Names that are kept -/

theorem extends_answer (t : NameTable) (r : NameRequest) : t.Extends (t.answer r).2 := by
  cases hex : r.explicit? with
  | none =>
    cases hl : t.assigned.lookup r.key with
    | some given => rw [answer_generated_known hex hl]; exact .refl t
    | none => rw [answer_generated_new hex hl]; exact extends_cons hl _ _
  | some n =>
    cases r with
    | captured object => cases hex
    | capturedMember object member => rw [answer_member hex]; exact .refl t
    | «variable» v =>
      cases hl : t.assigned.lookup (.variable v.id) with
      | some given => rw [answer_variable_known hex hl]; exact .refl t
      | none => rw [answer_variable_new hex hl]; exact extends_cons hl _ _

/-- A question that was answered before gets the same answer and changes nothing. -/
theorem answer_again {t u : NameTable} {r : NameRequest} (h : (t.answer r).2.Extends u) :
    u.answer r = ((t.answer r).1, u) := by
  cases hex : r.explicit? with
  | none =>
    cases hl : t.assigned.lookup r.key with
    | some given =>
      rw [answer_generated_known hex hl] at h ⊢
      exact answer_generated_known hex (h _ _ hl)
    | none =>
      rw [answer_generated_new hex hl] at h ⊢
      exact answer_generated_known hex (h _ _ (by rw [lookup_cons_eq, if_pos rfl]))
  | some n =>
    cases r with
    | captured object => cases hex
    | capturedMember object member => rw [answer_member hex, answer_member hex]
    | «variable» v =>
      cases hl : t.assigned.lookup (.variable v.id) with
      | some given =>
        rw [answer_variable_known hex hl] at h ⊢
        exact answer_variable_known hex (h _ _ hl)
      | none =>
        rw [answer_variable_new hex hl] at h ⊢
        exact answer_variable_known hex (h _ _ (by rw [lookup_cons_eq, if_pos rfl]))

/-! ### Runs of questions -/

/-- The answers to questions put one after another, and the table after them. -/
def answerAll (t : NameTable) : List NameRequest → List (NameRequest × String) × NameTable
  | [] => ([], t)
  | r :: rest =>
    let (name, next) := t.answer r
    let (given, last) := next.answerAll rest
    ((r, name) :: given, last)

/-- Many questions: the last table is sound and stands by all the answers. -/
theorem Sound.answerAll {root : Expr} (hc : root.Coherent) : ∀ {requests : List NameRequest}
    {t : NameTable}, t.Sound root → (∀ r ∈ requests, root.Mentions r) →
    (t.answerAll requests).2.Sound root ∧ t.Extends (t.answerAll requests).2 ∧
      ∀ r n, (r, n) ∈ (t.answerAll requests).1 →
        root.Mentions r ∧ (t.answerAll requests).2.Gives r n
  | [], t, h, _ => ⟨h, .refl t, fun r n hn => by cases hn⟩
  | r :: rest, t, h, hm => by
    have hr := hm r List.mem_cons_self
    have hrest : ∀ q ∈ rest, root.Mentions q := fun q hq => hm q (List.mem_cons_of_mem _ hq)
    obtain ⟨hs, hext, hgives⟩ := h.answer hc hr
    obtain ⟨hlast, hext', hall⟩ := hs.answerAll hc hrest
    refine ⟨hlast, hext.trans hext', ?_⟩
    intro q n hq
    rcases List.mem_cons.mp hq with hq | hq
    · cases hq
      exact ⟨hr, hgives.mono hext'⟩
    · exact hall q n hq

theorem answerAll_concat (t : NameTable) (r : NameRequest) : ∀ requests : List NameRequest,
    (t.answerAll (requests ++ [r])).2 = ((t.answerAll requests).2.answer r).2
  | [] => rfl
  | q :: rest => answerAll_concat (t.answer q).2 r rest

end NameTable

end ExprText

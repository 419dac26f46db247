import DelayedJobs.Store.Memory

/-!
The order of index entries, and what inserting and erasing do to an index that is kept in it. The
order is strict and total, so an ordered index has every entry once.
-/

namespace DelayedJobs.DueEntry

theorem before_iff {a b : DueEntry} :
    before a b = true ↔ a.1 < b.1 ∨ (a.1 = b.1 ∧ a.2 < b.2) := by
  simp [before]

theorem before_irrefl (a : DueEntry) : before a a = false := by
  rw [Bool.eq_false_iff, ne_eq, before_iff]
  rintro (h | ⟨-, h⟩)
  · exact Int.lt_irrefl _ h
  · exact Nat.lt_irrefl _ h

theorem ne_of_before {a b : DueEntry} (h : before a b = true) : a ≠ b := by
  rintro rfl
  rw [before_irrefl] at h
  exact Bool.false_ne_true h

theorem before_trans {a b c : DueEntry} (hab : before a b = true) (hbc : before b c = true) :
    before a c = true := by
  rw [before_iff] at *
  rcases hab with hab | ⟨hab, hab'⟩ <;> rcases hbc with hbc | ⟨hbc, hbc'⟩
  · exact .inl (Int.lt_trans hab hbc)
  · exact .inl (hbc ▸ hab)
  · exact .inl (hab ▸ hbc)
  · exact .inr ⟨hab.trans hbc, Nat.lt_trans hab' hbc'⟩

theorem eq_of_not_before {a b : DueEntry} (hab : ¬before a b = true) (hba : ¬before b a = true) :
    a = b := by
  rw [before_iff] at hab hba
  have time : a.1 = b.1 := by
    apply Instant.ext
    have h : ¬a.1.nanos < b.1.nanos := fun h => hab (.inl h)
    have h' : ¬b.1.nanos < a.1.nanos := fun h => hba (.inl h)
    omega
  have id : a.2 = b.2 := by
    apply Uuid.ext
    have h : ¬a.2.value < b.2.value := fun h => hab (.inr ⟨time, h⟩)
    have h' : ¬b.2.value < a.2.value := fun h => hba (.inr ⟨time.symm, h⟩)
    omega
  exact Prod.ext time id

theorem not_before_of_before {a b : DueEntry} (h : before a b = true) : ¬before b a = true :=
  fun h' => ne_of_before (before_trans h h') rfl

theorem before_of_not_before {a b : DueEntry} (h : ¬before b a = true) (ne : a ≠ b) :
    before a b = true :=
  Decidable.byContradiction fun hab => ne (eq_of_not_before hab h)

theorem not_before_trans {a b c : DueEntry} (hab : ¬before b a = true) (hbc : ¬before c b = true) :
    ¬before c a = true := by
  intro hca
  by_cases same : before a b = true
  · exact hbc (before_trans hca same)
  · exact hbc (eq_of_not_before same hab ▸ hca)

theorem time_le_of_not_before {a b : DueEntry} (h : ¬before a b = true) : b.1 ≤ a.1 := by
  rw [before_iff] at h
  exact Int.not_lt.mp fun h' => h (.inl h')

def Ordered (queue : List DueEntry) : Prop := queue.Pairwise fun a b => before a b = true

theorem Ordered.nodup {queue : List DueEntry} (h : Ordered queue) : queue.Nodup :=
  List.Pairwise.imp ne_of_before h

theorem mem_insert {e d : DueEntry} {queue : List DueEntry} :
    d ∈ insert e queue ↔ d = e ∨ d ∈ queue := by
  induction queue with
  | nil => simp [insert]
  | cons c rest ih =>
    rw [insert]
    split
    · simp
    · split
      next h => subst h; simp
      next h => rw [List.mem_cons, ih, List.mem_cons, or_left_comm]

theorem Ordered.insert {queue : List DueEntry} (h : Ordered queue) (e : DueEntry) :
    Ordered (DueEntry.insert e queue) := by
  induction queue with
  | nil => simp [DueEntry.insert, Ordered]
  | cons d rest ih =>
    obtain ⟨first, tail⟩ := List.pairwise_cons.mp h
    rw [DueEntry.insert]
    split
    next hed =>
      refine List.pairwise_cons.mpr ⟨fun c hc => ?_, h⟩
      rcases List.mem_cons.mp hc with rfl | hc
      · exact hed
      · exact before_trans hed (first c hc)
    next hed =>
      split
      · exact h
      next hne =>
        refine List.pairwise_cons.mpr ⟨fun c hc => ?_, ih tail⟩
        rcases mem_insert.mp hc with rfl | hc
        · exact Decidable.byContradiction fun hde => hne (eq_of_not_before hed hde)
        · exact first c hc

theorem Ordered.erase {queue : List DueEntry} (h : Ordered queue) (e : DueEntry) :
    Ordered (queue.erase e) :=
  List.Pairwise.sublist List.erase_sublist h

theorem Ordered.mem_erase {queue : List DueEntry} (h : Ordered queue) {d e : DueEntry} :
    d ∈ queue.erase e ↔ d ≠ e ∧ d ∈ queue :=
  h.nodup.mem_erase_iff

theorem Ordered.eq_of_mem_iff {queue other : List DueEntry} (h : Ordered queue)
    (h' : Ordered other) (same : ∀ e, e ∈ queue ↔ e ∈ other) : queue = other := by
  have perm : queue.Perm other := (List.perm_ext_iff_of_nodup h.nodup h'.nodup).mpr same
  exact perm.eq_of_pairwise (fun a b _ _ ab ba => absurd ba (not_before_of_before ab)) h h'

theorem Ordered.not_before_head {e d : DueEntry} {rest : List DueEntry}
    (h : Ordered (e :: rest)) (hd : d ∈ e :: rest) : ¬before d e = true := by
  rcases List.mem_cons.mp hd with rfl | hd
  · simp [before_irrefl]
  · exact not_before_of_before ((List.pairwise_cons.mp h).1 d hd)

end DelayedJobs.DueEntry

import DelayedJobs.Proofs.Conformance.Backlog

/-!
Workers that claim side by side, in whatever order they get their turns. The jobs they have claimed
are those of the store with a running lease, and one of them stops only when that is all jobs. So a
round in which everyone gets a turn brings another job, or finds everyone at rest.
-/

namespace DelayedJobs

namespace MemoryStore
variable {s : MemoryStore}

def hidden (s : MemoryStore) (now : Instant) : List Uuid :=
  (s.jobs.filter fun j => decide (now < j.invisibleUntil)).map Job.id

theorem mem_hidden {now : Instant} {id : Uuid} :
    id ∈ s.hidden now ↔ ∃ job ∈ s.jobs, now < job.invisibleUntil ∧ job.id = id := by
  simp [hidden, and_assoc]

theorem Coherent.nodup_hidden (h : s.Coherent) (now : Instant) : (s.hidden now).Nodup :=
  h.distinct.sublist (List.filter_sublist.map Job.id)

theorem length_hidden_le (s : MemoryStore) (now : Instant) :
    (s.hidden now).length ≤ s.jobs.length := by
  rw [hidden, List.length_map]
  exact List.length_filter_le _ _

theorem length_hidden {now : Instant} (all : ∀ job ∈ s.jobs, now < job.invisibleUntil) :
    (s.hidden now).length = s.jobs.length := by
  rw [hidden, List.length_map, List.filter_eq_self.mpr fun job hj => decide_eq_true (all job hj)]

theorem Coherent.hidden_leased (h : s.Coherent) {job : Job} (member : job ∈ s.jobs)
    {now until_ : Instant} (due : job.invisibleUntil ≤ now) (later : now < until_)
    (worker : WorkerId) :
    ((s.replace job (job.leased worker until_)).hidden now).Perm (job.id :: s.hidden now) := by
  have fresh : job.id ∉ s.hidden now := by
    rw [mem_hidden]
    rintro ⟨other, hother, early, eq⟩
    rw [h.eq_of_id hother member eq] at early
    exact Int.not_lt.mpr due early
  have same := job.id_leased worker until_
  have after := h.replace member same (job.pending_leased worker until_)
  refine (List.perm_ext_iff_of_nodup (after.nodup_hidden now)
    (List.nodup_cons.mpr ⟨fresh, h.nodup_hidden now⟩)).mpr fun id => ?_
  rw [List.mem_cons, mem_hidden, mem_hidden]
  constructor
  · rintro ⟨other, hother, early, rfl⟩
    rcases (mem_replace member same).mp hother with rfl | ⟨hother, -⟩
    · exact .inl rfl
    · exact .inr ⟨other, hother, early, rfl⟩
  · rintro (rfl | ⟨other, hother, early, rfl⟩)
    · exact ⟨_, (mem_replace member same).mpr (.inl rfl), later, rfl⟩
    · refine ⟨other, (mem_replace member same).mpr (.inr ⟨hother, fun eq => ?_⟩), early, rfl⟩
      exact fresh (mem_hidden.mpr ⟨other, hother, early, eq⟩)

end MemoryStore

namespace Conformance
open Check

variable {σ : Type} {setting : Setting σ} {batch : Nat} {Stands : σ → RetainingStore → Prop}
  {n : Nat} {s : RetainingStore} {verdict : Prop} {racers : List Racer}

namespace Racer

def taking (r : Racer) (id : Uuid) : Racer := { r with claimed := r.claimed ++ [id] }

def stopped (r : Racer) : Racer := { r with running := false }

theorem claimed_taking (r : Racer) (id : Uuid) : (r.taking id).claimed = r.claimed ++ [id] := rfl

theorem claimed_stopped (r : Racer) : r.stopped.claimed = r.claimed ++ [] :=
  (List.append_nil _).symm

end Racer

def claims (racers : List Racer) : List Uuid := racers.flatMap Racer.claimed

structure Racing (setting : Setting σ) (total : Nat) (racers : List Racer) (s : RetainingStore) :
    Prop where
  coherent : s.pending.Coherent
  size : s.pending.jobs.length = total
  seen : (claims racers).Perm (s.pending.hidden setting.now)
  halted : ∀ r ∈ racers, r.running = false → (claims racers).length = total

theorem Racing.le {total : Nat} (h : Racing setting total racers s) :
    (claims racers).length ≤ total := by
  rw [h.seen.length_eq, ← h.size]
  exact s.pending.length_hidden_le setting.now

structure After (turns : List Nat) (before after : List Racer) : Prop where
  length : after.length = before.length
  grown : (claims before).length ≤ (claims after).length
  kept : ∀ (i : Nat) r, before[i]? = some r → r.running = false → after[i]? = some r
  moved : ∀ t ∈ turns, t < before.length → (claims before).length < (claims after).length ∨
    ∃ r, after[t]? = some r ∧ r.running = false

theorem After.nil (racers : List Racer) : After [] racers racers where
  length := rfl
  grown := Nat.le_refl _
  kept _ _ h _ := h
  moved := by simp

theorem After.idle {turn : Nat}
    (rests : turn < racers.length → ∃ r, racers[turn]? = some r ∧ r.running = false) :
    After [turn] racers racers where
  length := rfl
  grown := Nat.le_refl _
  kept _ _ h _ := h
  moved t ht less := by
    obtain rfl := List.mem_singleton.mp ht
    exact .inr (rests less)

theorem After.cons {turn : Nat} {turns : List Nat} {a b c : List Racer} (first : After [turn] a b)
    (rest : After turns b c) : After (turn :: turns) a c where
  length := rest.length.trans first.length
  grown := Nat.le_trans first.grown rest.grown
  kept i r h stopped := rest.kept i r (first.kept i r h stopped) stopped
  moved t ht less := by
    have earlier := first.grown
    have later := rest.grown
    obtain rfl | ht := List.mem_cons.mp ht
    · obtain more | ⟨r, hr, stopped⟩ := first.moved t List.mem_cons_self less
      · exact .inl (by omega)
      · exact .inr ⟨r, rest.kept t r hr stopped, stopped⟩
    · obtain more | stopped := rest.moved t ht (first.length.symm ▸ less)
      · exact .inl (by omega)
      · exact .inr stopped

theorem claims_set {i : Nat} {racer new : Racer} (found : racers[i]? = some racer)
    {ids : List Uuid} (eq : new.claimed = racer.claimed ++ ids) :
    (claims (racers.set i new)).Perm (ids ++ claims racers) := by
  induction racers generalizing i with
  | nil => simp at found
  | cons first rest ih =>
    cases i with
    | zero =>
      obtain rfl : first = racer := by simpa using found
      simp only [claims, List.set_cons_zero, List.flatMap_cons, eq, List.append_assoc]
      exact List.perm_append_comm_assoc _ _ _
    | succ i =>
      have tail := (ih (i := i) (by simpa using found)).append_left first.claimed
      simp only [claims, List.set_cons_succ, List.flatMap_cons] at tail ⊢
      exact tail.trans (List.perm_append_comm_assoc _ _ _)

theorem After.set {turn : Nat} {racer new : Racer} (found : racers[turn]? = some racer)
    (running : racer.running = true) {ids : List Uuid} (eq : new.claimed = racer.claimed ++ ids)
    (moved : 0 < ids.length ∨ new.running = false) : After [turn] racers (racers.set turn new) where
  length := List.length_set
  grown := by
    rw [(claims_set found eq).length_eq, List.length_append]
    omega
  kept i r h stopped := by
    have ne : turn ≠ i := by
      rintro rfl
      rw [found] at h
      simp [← Option.some.inj h, running] at stopped
    rwa [List.getElem?_set_ne ne]
  moved t ht less := by
    obtain rfl := List.mem_singleton.mp ht
    obtain more | stopped := moved
    · rw [(claims_set found eq).length_eq, List.length_append]
      exact .inl (by omega)
    · exact .inr ⟨new, List.getElem?_set_self less, stopped⟩

theorem Racing.stops {total turn : Nat} {racer : Racer} (h : Racing setting total racers s)
    (found : racers[turn]? = some racer)
    (early : ∀ job ∈ s.pending.jobs, setting.now < job.invisibleUntil) :
    Racing setting total (racers.set turn racer.stopped) s where
  coherent := h.coherent
  size := h.size
  seen := (claims_set found racer.claimed_stopped).trans h.seen
  halted _ _ _ := by
    rw [(claims_set found racer.claimed_stopped).length_eq, List.nil_append,
      h.seen.length_eq, MemoryStore.length_hidden early, h.size]

theorem Racing.claims {total turn : Nat} {racer : Racer} (h : Racing setting total racers s)
    (found : racers[turn]? = some racer) (running : racer.running = true)
    {job : Job} (member : job ∈ s.pending.jobs) (due : job.invisibleUntil ≤ setting.now)
    {until_ : Instant} (later : setting.now < until_) :
    Racing setting total (racers.set turn (racer.taking job.id))
      { s with pending := s.pending.replace job (job.leased racer.worker until_) } := by
  have hidden := h.coherent.hidden_leased member due later racer.worker
  have claimed := claims_set found (racer.claimed_taking job.id)
  have seen := claimed.trans ((h.seen.cons job.id).trans hidden.symm)
  have coherent := h.coherent.replace member (job.id_leased racer.worker until_)
    (job.pending_leased racer.worker until_)
  have size := (s.pending.length_replace job (job.leased racer.worker until_)).trans h.size
  refine ⟨coherent, size, seen, fun r hr stopped => ?_⟩
  -- Whoever had stopped before had left no job to claim.
  have before : r ∈ racers := by
    obtain hr | rfl := List.mem_or_eq_of_mem_set hr
    · exact hr
    · simp [Racer.taking, running] at stopped
  have all := h.halted r before stopped
  have more := seen.length_eq
  have most := MemoryStore.length_hidden_le (s.pending.replace job (job.leased racer.worker until_))
    setting.now
  rw [size] at most
  rw [claimed.length_eq] at more ⊢
  simp only [List.length_append, List.length_singleton] at more ⊢
  omega

namespace Sound

variable (sound : Sound setting batch Stands)
include sound

theorem race {total : Nat} {turns : List Nat} {f : List Racer → Check σ Unit}
    (racing : Racing setting total racers s)
    (next : ∀ left racers', Racing setting total racers' left → After turns racers racers' →
      Ends setting Stands n left (f racers') verdict) :
    Ends setting Stands n s (race setting.now turns racers >>= f) verdict := by
  induction turns generalizing racers s with
  | nil => exact next s racers racing (.nil racers)
  | cons turn turns ih =>
    cases found : racers[turn]? with
    | none =>
      have idle : After [turn] racers racers := .idle fun less =>
        absurd less (Nat.not_lt.mpr (List.getElem?_eq_none_iff.mp found))
      simp only [Conformance.race, found]
      exact ih racing fun left racers' racing after => next left racers' racing (idle.cons after)
    | some racer =>
      cases running : racer.running with
      | false =>
        have idle : After [turn] racers racers := .idle fun _ => ⟨racer, found, running⟩
        simp only [Conformance.race, found]
        rw [if_neg (Bool.eq_false_iff.mp running)]
        exact ih racing fun left racers' racing after => next left racers' racing (idle.cons after)
      | true =>
        simp only [Conformance.race, found]
        rw [if_pos running, bind_assoc]
        obtain ⟨eq, early⟩ | ⟨job, member, due, -, eq⟩ :=
          racing.coherent.claim_cases racer.worker setting.now (leaseEnd setting.now)
        · have step := After.set found running racer.claimed_stopped (.inr rfl)
          have answer := RetainingStore.apply_claim batch eq
          refine sound.claim answer (ih (racing.stops found early) ?_)
          exact fun left racers' racing after => next left racers' racing (step.cons after)
        · have step := After.set found running (racer.claimed_taking job.id) (.inl Nat.one_pos)
          have racing := racing.claims found running member due sound.lt_leaseEnd
          have answer := RetainingStore.apply_claim batch eq
          refine sound.claim answer (ih racing ?_)
          exact fun left racers' racing after => next left racers' racing (step.cons after)

omit sound in
theorem race_append {now : Instant} (first rest : List Nat) (racers : List Racer) :
    Conformance.race now (first ++ rest) racers =
      (Conformance.race now first racers >>= Conformance.race now rest : Check σ _) := by
  induction first generalizing racers with
  | nil => simp [Conformance.race]
  | cons turn first ih =>
    simp only [List.cons_append, Conformance.race, ih]
    split
    · split
      · rw [bind_assoc]
        congr 1
        funext job
        cases job <;> rfl
      · rfl
    · rfl

theorem rounds {total k more : Nat} {f : List Racer → Check σ Unit}
    (racing : Racing setting total racers s) (length : racers.length = k + 1)
    (few : total ≤ (claims racers).length + more)
    (next : ∀ left racers', Racing setting total racers' left → racers'.length = k + 1 →
      (∀ r ∈ racers', r.running = false) → Ends setting Stands n left (f racers') verdict) :
    Ends setting Stands n s
      (Conformance.race setting.now
        (List.replicate (more + 1) (List.range (k + 1))).flatten racers >>= f) verdict := by
  induction more generalizing racers s with
  | zero =>
    rw [List.replicate_one, List.flatten_singleton]
    refine sound.race racing fun left racers' racing after => ?_
    refine next left racers' racing (after.length.trans length) fun r hr => ?_
    obtain ⟨t, less, rfl⟩ := List.mem_iff_getElem.mp hr
    have turn : t < racers.length := after.length ▸ less
    have most := racing.le
    obtain grown | ⟨r, found, stopped⟩ :=
      after.moved t (List.mem_range.mpr (length ▸ turn)) turn
    · omega
    · rw [List.getElem?_eq_getElem less] at found
      rwa [Option.some.inj found]
  | succ more ih =>
    rw [List.replicate_succ, List.flatten_cons, race_append, bind_assoc]
    refine sound.race racing fun left racers' racing after => ?_
    refine ih racing (after.length.trans length) ?_
    obtain grown | ⟨r, found, stopped⟩ := after.moved 0 (by simp) (by omega)
    · omega
    · rw [racing.halted r (List.mem_of_getElem? found) stopped]
      omega

omit sound in
theorem ends_drawRacers {count : Nat} {f : List Racer → Check σ Unit}
    (next : ∀ racers, racers.length = count →
      (∀ r ∈ racers, r.claimed = [] ∧ r.running = true) →
        Ends setting Stands (n + count) s (f racers) verdict) :
    Ends setting Stands n s (drawRacers count >>= f) verdict := by
  induction count generalizing n f with
  | zero => exact next [] rfl (by simp)
  | succ count ih =>
    rw [drawRacers, bind_assoc]
    refine ends_drawWorker ?_
    rw [bind_assoc]
    refine ih fun racers length fresh => ?_
    rw [pure_bind, Nat.add_right_comm]
    refine next _ (congrArg Nat.succ length) ?_
    rw [List.forall_mem_cons]
    exact ⟨⟨rfl, rfl⟩, fresh⟩

omit sound in
theorem ends_read {f : Setting σ → Check σ Unit}
    (next : Ends setting Stands n s (f setting) verdict) :
    Ends setting Stands n s (read >>= f) verdict :=
  next

theorem concurrentClaimsAreExclusive_ends :
    Ends setting Stands 0 {} concurrentClaimsAreExclusive True := by
  refine ends_now (sound.scheduleMany stock_empty (by decide) fun s stock => ?_)
  refine ends_read (ends_drawRacers fun racers length fresh => ?_)
  have idle : claims racers = [] := List.flatMap_eq_nil_iff.mpr fun r hr => (fresh r hr).1
  have due : s.pending.hidden setting.now = [] := by
    rw [List.eq_nil_iff_forall_not_mem]
    intro id h
    obtain ⟨job, hj, early, -⟩ := MemoryStore.mem_hidden.mp h
    exact Int.lt_irrefl _ (stock.due job hj ▸ early)
  have racing : Racing setting raceSize racers s := by
    refine ⟨stock.coherent, stock.size, by rw [idle, due], fun r hr stopped => ?_⟩
    simp [(fresh r hr).2] at stopped
  rw [race_append, bind_assoc]
  refine sound.race racing fun s racers racing after => ?_
  refine sound.rounds (k := 7) racing (after.length.trans length) (Nat.le_add_left _ _) ?_
  intro s racers racing length still
  have first : racers[0] ∈ racers := List.getElem_mem _
  refine ends_ensure (by simpa using still) (ends_ensure (decide_eq_true ?_) (Ends.last ?_))
  · exact racing.seen.nodup_iff.mpr (racing.coherent.nodup_hidden setting.now)
  · exact ends_ensure (beq_iff_eq.mpr (racing.halted _ first (still _ first))) ends_pure

end Sound
end Conformance
end DelayedJobs

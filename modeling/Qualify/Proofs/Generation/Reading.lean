import Qualify.Generation.Units
import Qualify.Proofs.Store.Growth

namespace Qualify

namespace Gen

variable {α β : Type} {P P' : Event → Prop}

instance : LawfulMonad Gen := by
  refine LawfulMonad.mk' Gen ?_ ?_ ?_
  · rintro α ⟨events, e | a⟩
    · rfl
    · show (⟨events ++ [], .ok a⟩ : Gen α) = ⟨events, .ok a⟩
      rw [List.append_nil]
  · intros
    rfl
  · rintro α β γ ⟨events, e | a⟩ f g
    · rfl
    · show bind (bind ⟨events, .ok a⟩ f) g = bind ⟨events, .ok a⟩ fun a => bind (f a) g
      simp only [bind]
      rcases (f a) with ⟨events', e | b⟩
      · rfl
      · simp only [List.append_assoc]

/-- The reading ends with the result `a`, and all its events are in `P`. -/
def Reads (P : Event → Prop) (x : Gen α) (a : α) : Prop := x.result = .ok a ∧ ∀ e ∈ x.events, P e

theorem Reads.mono {x : Gen α} {a : α} (h : x.Reads P a) (hP : ∀ e, P e → P' e) : x.Reads P' a :=
  ⟨h.1, fun e he => hP e (h.2 e he)⟩

@[simp] theorem reads_pure {a b : α} : (pure a : Gen α).Reads P b ↔ a = b := by
  constructor
  · exact fun h => Except.ok.inj h.1
  · rintro rfl
    exact ⟨rfl, nofun⟩

@[simp] theorem reads_bind {x : Gen α} {f : α → Gen β} {b : β} :
    (x >>= f).Reads P b ↔ ∃ a, x.Reads P a ∧ (f a).Reads P b := by
  show (bind x f).Reads P b ↔ _
  rcases x with ⟨events, e | a⟩
  · constructor
    · rintro ⟨⟨⟩, -⟩
    · rintro ⟨a, ⟨⟨⟩, -⟩, -⟩
  · have hbind : bind ⟨events, .ok a⟩ f = ⟨events ++ (f a).events, (f a).result⟩ := rfl
    simp only [hbind, Reads, List.forall_mem_append]
    constructor
    · rintro ⟨hresult, hx, hf⟩
      exact ⟨a, ⟨rfl, hx⟩, hresult, hf⟩
    · rintro ⟨_, ⟨⟨⟩, hx⟩, hresult, hf⟩
      exact ⟨hresult, hx, hf⟩

@[simp] theorem not_reads_fail {e : GenerationError} {a : α} : ¬(fail e : Gen α).Reads P a := nofun

@[simp] theorem reads_ofOption {e : GenerationError} {o : Option α} {a : α} :
    (ofOption e o).Reads P a ↔ o = some a := by
  cases o with
  | none => exact iff_of_false not_reads_fail nofun
  | some b => rw [ofOption, reads_pure, Option.some.injEq]

@[simp] theorem reads_emit {events : List Event} {u : Unit} :
    (emit events).Reads P u ↔ ∀ e ∈ events, P e :=
  and_iff_right rfl

@[simp] theorem reads_discard {x : Gen α} {u : Unit} :
    (discard x).Reads P u ↔ ∃ a, x.Reads P a := by
  have hdiscard : discard x = x >>= fun _ => pure () := rfl
  rw [hdiscard, reads_bind]
  exact exists_congr fun _ => and_iff_left (reads_pure.mpr rfl)

@[simp] theorem reads_forM {xs : List α} {f : α → Gen Unit} {u : Unit} :
    (xs.forM f).Reads P u ↔ ∀ x ∈ xs, (f x).Reads P () := by
  induction xs with
  | nil => exact iff_of_true (reads_pure.mpr rfl) nofun
  | cons x xs ih =>
    have hcons : (x :: xs).forM f = f x >>= fun _ => xs.forM f := rfl
    rw [hcons, reads_bind, List.forall_mem_cons, ← ih]
    exact ⟨fun ⟨_, hx, hxs⟩ => ⟨hx, hxs⟩, fun ⟨hx, hxs⟩ => ⟨(), hx, hxs⟩⟩

theorem reads_requestsOnly {x : Gen α} {a : α} :
    x.requestsOnly.Reads P a ↔ x.Reads (fun e => e.isRequest = true → P e) a := by
  simp only [Reads, requestsOnly, List.mem_filter, and_imp]

/-- Whenever `y` ends with events in `P`, so does `x` with events in `P'`, and the results are in
`Q`. -/
def Follows (P P' : Event → Prop) (Q : α → β → Prop) (x : Gen α) (y : Gen β) : Prop :=
  ∀ b, y.Reads P b → ∃ a, x.Reads P' a ∧ Q a b

namespace Follows

variable {γ δ : Type} {Q Q' : α → β → Prop} {R : γ → δ → Prop} {x : Gen α} {y : Gen β}

theorem mono (h : Follows P P' Q x y) (hQ : ∀ a b, Q a b → Q' a b) : Follows P P' Q' x y :=
  fun b hb =>
  (h b hb).imp fun a ha => ⟨ha.1, hQ a b ha.2⟩

theorem pure {a : α} {b : β} (h : Q a b) : Follows P P' Q (Pure.pure a) (Pure.pure b) := by
  intro b' hb'
  obtain rfl := reads_pure.mp hb'
  exact ⟨a, reads_pure.mpr rfl, h⟩

theorem bind {f : α → Gen γ} {g : β → Gen δ} (h : Follows P P' Q x y)
    (hf : ∀ a b, Q a b → Follows P P' R (f a) (g b)) : Follows P P' R (x >>= f) (y >>= g) := by
  intro d hd
  obtain ⟨b, hb, hd⟩ := reads_bind.mp hd
  obtain ⟨a, ha, hab⟩ := h b hb
  obtain ⟨c, hc, hcd⟩ := hf a b hab d hd
  exact ⟨c, reads_bind.mpr ⟨a, ha, hc⟩, hcd⟩

theorem fail {e e' : GenerationError} : Follows P P' Q (Gen.fail e) (Gen.fail e') :=
  fun _ h => absurd h not_reads_fail

/-- Readings that are the same have the same result. -/
theorem refl (hP : ∀ e, P e → P' e) (x : Gen α) :
    Follows P P' (fun a b => a = b ∧ x.Reads P b) x x :=
  fun b hb => ⟨b, hb.mono hP, rfl, hb⟩

/-- Both start with the same reading. -/
theorem bind_same (hP : ∀ e, P e → P' e) {x : Gen α} {f : α → Gen γ} {g : α → Gen δ}
    (hf : ∀ a, x.Reads P a → Follows P P' R (f a) (g a)) : Follows P P' R (x >>= f) (x >>= g) := by
  refine (refl hP x).bind fun a b hab => ?_
  obtain ⟨rfl, hread⟩ := hab
  exact hf a hread

theorem emit {es es' : List Event} (h : (∀ e ∈ es', P e) → ∀ e ∈ es, P' e) :
    Follows P P' (fun _ _ => True) (Gen.emit es) (Gen.emit es') :=
  fun _ hb => ⟨(), reads_emit.mpr (h (reads_emit.mp hb)), trivial⟩

theorem ofOption {e e' : GenerationError} {o : Option α} {o' : Option β} (h : Option.Rel Q o o') :
    Follows P P' Q (Gen.ofOption e o) (Gen.ofOption e' o') := by
  cases h with
  | some h => exact pure h
  | none => exact fail

end Follows

end Gen

namespace SlotTable

variable {t t' : SlotTable} {l : Location} {init : SlotInit}

/-- The location has a slot that agrees with the request. -/
def Has (t : SlotTable) (l : Location) (init : SlotInit) : Prop :=
  ∃ s, t.slots.find? (·.location == l) = some s ∧ s.init = init

theorem Has.mono (h : t.Has l init) (hgrows : t.Grows t') : t'.Has l init := by
  obtain ⟨s, hs, hinit⟩ := h
  obtain ⟨added, hadded⟩ := hgrows
  exact ⟨s, by rw [hadded, Array.find?_append, hs, Option.some_or], hinit⟩

theorem Has.lookup (h : t.Has l init) : ∃ i, t.lookup l = some i ∧ i.index < t.size := by
  obtain ⟨s, hs, -⟩ := h
  have hsome : (t.slots.findIdx? (·.location == l)).isSome = true := by
    have hlocation := Array.find?_some hs
    rw [Array.findIdx?_isSome, Array.any_eq_true']
    exact ⟨s, Array.mem_of_find?_eq_some hs, hlocation⟩
  obtain ⟨k, hk⟩ := Option.isSome_iff_exists.mp hsome
  exact ⟨⟨k⟩, by rw [SlotTable.lookup, hk, Option.map_some],
    (Array.findIdx?_eq_some_iff_getElem.mp hk).1⟩

theorem Has.intern_eq (h : t.Has l init) : ∃ i, t.intern l init = .ok (i, t) := by
  obtain ⟨i, hi, -⟩ := h.lookup
  obtain ⟨s, hs, hinit⟩ := h
  exact ⟨i, by simp only [intern, check, hs, hinit, if_true, hi]⟩

theorem intern_has {i : SlotId} (h : t.intern l init = .ok (i, t')) : t'.Has l init := by
  cases hfind : t.slots.find? (·.location == l) with
  | none =>
    simp only [intern, check, hfind, Except.ok.injEq, Prod.mk.injEq] at h
    obtain ⟨-, rfl⟩ := h
    exact ⟨⟨l, init⟩, by simp [Array.find?_push, hfind], rfl⟩
  | some s =>
    by_cases hinit : s.init = init
    · have hhas : t.Has l init := ⟨s, hfind, hinit⟩
      obtain ⟨j, hj⟩ := hhas.intern_eq
      obtain ⟨-, rfl⟩ := Prod.mk.inj (Except.ok.inj (hj.symm.trans h))
      exact hhas
    · simp only [intern, check, hfind, hinit, if_false] at h
      cases h

end SlotTable

namespace Event

/-- The table has a slot for every request. -/
theorem slotTable_spec {t t' : SlotTable} {es : List Event} (h : slotTable t es = .ok t') :
    t.Grows t' ∧ ∀ l init, .request l init ∈ es → t'.Has l init := by
  induction es generalizing t with
  | nil =>
    cases h
    exact ⟨.refl _, nofun⟩
  | cons e es ih =>
    cases e with
    | request l init =>
      cases hintern : t.intern l init with
      | error e => simp [slotTable, hintern, bind, Except.bind] at h
      | ok r =>
        simp only [slotTable, hintern, bind, Except.bind] at h
        obtain ⟨hgrows, hhas⟩ := ih h
        refine ⟨(SlotTable.intern_spec hintern).1.trans hgrows, fun l' init' hmem => ?_⟩
        obtain heq | hmem := List.mem_cons.mp hmem
        · cases heq
          exact (SlotTable.intern_has hintern).mono hgrows
        · exact hhas l' init' hmem
    | require c p =>
      obtain ⟨hgrows, hhas⟩ := ih h
      exact ⟨hgrows, fun l init hmem => hhas l init ((List.mem_cons.mp hmem).resolve_left nofun)⟩

/-- Requests of what the table has change nothing. -/
theorem slotTable_eq_self {t : SlotTable} {es : List Event}
    (h : ∀ l init, .request l init ∈ es → t.Has l init) :
    slotTable t es = .ok t := by
  induction es with
  | nil => rfl
  | cons e es ih =>
    have hes := ih fun l init hmem => h l init (List.mem_cons_of_mem e hmem)
    cases e with
    | request l init =>
      obtain ⟨i, hi⟩ := (h l init List.mem_cons_self).intern_eq
      simp only [slotTable, hi, bind, Except.bind, hes]
    | require c p => exact hes

theorem mem_constraints {t : SlotTable} {es : List Event} {x : Constraint SlotId × Provenance} :
    x ∈ constraints t es ↔ ∃ c p, .require c p ∈ es ∧
      x = (c.map fun l => (t.lookup l).getD ⟨0⟩, p) := by
  induction es with
  | nil => simp [constraints]
  | cons e es ih =>
    cases e with
    | request l init => simp [constraints, ih]
    | require c p =>
      simp only [constraints, List.mem_cons, ih, Event.require.injEq]
      grind

end Event

/-- A unit was read to its end, and its requests agree. -/
theorem generate_eq_ok {types : TypeSystem} {program : Program} {u : CodeUnit} {c : UnitConstraints}
    (h : generate types program u = .ok c) :
    let reading := Surroundings.readUnit ⟨types, program, u.name⟩ u
    reading.Reads (· ∈ reading.events) () ∧ Event.slotTable {} reading.events = .ok c.slots ∧
      c.constraints = Event.constraints c.slots reading.events := by
  unfold generate at h
  dsimp only at h
  split at h
  case h_1 => cases h
  case h_2 hslots =>
    split at h
    case h_1 => cases h
    case h_2 hresult =>
      cases h
      exact ⟨⟨hresult, fun _ he => he⟩, hslots, rfl⟩

end Qualify

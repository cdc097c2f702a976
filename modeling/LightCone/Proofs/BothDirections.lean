import LightCone.Proofs.Deadlines
import LightCone.Proofs.IdSets
import LightCone.Proofs.OffsetOutcomes

/-!
The two directions of a pair.

Both directions of a pair share one stored delay, so an answer may come from an evaluation of the other
direction. This file

1. shows that no position is any distance from itself (`Elementary.KeepsZero.distance_self`), where
   `Elementary.distance_comm` says that distances are the same both ways;
2. shows that evaluations in both directions leave one and the same memory (`Memory.evaluate_turned`);
3. pairs the requests, and their answers, that differ in the direction of a delay (`Request.Turned`,
   `Exchange.Turned`), and concludes that whole runs of such requests cannot be told apart otherwise
   (`directions_are_alike`).
-/
namespace LightCone

/-! ## The way to oneself -/

namespace Binary64

variable {x : Binary64}

/-- What becomes of zero on the way through a distance. -/
theorem zeros : (0 : Binary64) = zero false ∧ (0 : Binary64) / 2 = 0 ∧ (0 : Binary64).square = 0 ∧
    0 * radiansPerDegree = 0 ∧ (0 : Binary64).smaller 1 = 0 ∧ 2 * earthRadius * 0 = 0 ∧
    (0 : Binary64).abs = 0 ∧ sin 0 = 0 ∧ asin 0 = 0 ∧ sqrt 0 = 0 ∧ hypot 0 0 = 0 := by
  decide +kernel

theorem sub_self (h : x.isFinite = true) : x - x = 0 := by
  cases x with
  | nan => cases h
  | infinity s => cases h
  | finite s u f =>
    have hsum : signed s u + signed (!s) u = 0 := by rw [signed_neg, Int.add_right_neg]
    rw [zeros.1]
    show add (finite s u f) (finite (!s) u f) = zero false
    simp only [add, hsum, if_true, Bool.and_not_self]

/-- Zero of either sign adds nothing to zero. -/
theorem zero_add (h : HasValue x 0) : 0 + x = 0 := by
  obtain ⟨s, u, f, rfl, hu⟩ := h.eq_finite
  have hsum : signed false 0 + signed s u = 0 := by
    rw [zero_mul] at hu
    rw [signed_zero, Int.zero_add]
    exact_mod_cast hu.symm
  rw [zeros.1]
  show add (zero false) (finite s u f) = zero false
  simp only [zero, add, hsum, if_true, Bool.false_and]

theorem hasValue_mul_zero (h : x.isFinite = true) : HasValue (x * 0) 0 := by
  have hvalue : HasValue x x.toRat := ⟨h, rfl⟩
  have hsight : |x.toRat * 0| ≤ sight := by
    rw [mul_zero, abs_zero]
    exact (zero_le_one' ℚ).trans (two_pow_le_sight (k := 0) (by omega))
  have hproduct := hvalue.mul hasValue_zero hsight
  rwa [mul_zero, nearest_zero] at hproduct

end Binary64

open Binary64 (HasValue)

namespace Position

theorem isFinite_longitude (p : Position) : p.longitude.isFinite = true := by
  have hok := p.longitude_ok
  rw [Binary64.within, Bool.and_eq_true, Bool.and_eq_true] at hok
  exact hok.1.1

/-- A latitude is a number in radians too. -/
theorem isFinite_radians (p : Position) : (p.latitude * radiansPerDegree).isFinite = true := by
  have hok := p.latitude_ok
  rw [Binary64.within, Bool.and_eq_true, Bool.and_eq_true, decide_eq_true_eq, decide_eq_true_eq] at hok
  obtain ⟨⟨hfinite, hlow⟩, hhigh⟩ := hok
  have hlatitude : HasValue p.latitude p.latitude.toRat := ⟨hfinite, rfl⟩
  have hninety : HasValue 90 ((90 : Nat) : ℚ) := Binary64.hasValue_natCast (by decide)
  have hradian : HasValue radiansPerDegree radiansPerDegree.toRat ∧ 0 ≤ radiansPerDegree ∧
      radiansPerDegree ≤ 1 := ⟨⟨by decide +kernel, rfl⟩, by decide +kernel, by decide +kernel⟩
  obtain ⟨hradian, hnonneg, hle⟩ := hradian
  rw [Binary64.hasValue_zero.le_iff hradian] at hnonneg
  rw [hradian.le_iff Binary64.hasValue_one] at hle
  rw [hlatitude.le_iff hninety] at hhigh
  have hlow' := (hninety.neg.le_iff hlatitude).mp hlow
  have hproduct : |p.latitude.toRat * radiansPerDegree.toRat| ≤ 90 := by
    rw [abs_mul, abs_of_nonneg hnonneg]
    calc |p.latitude.toRat| * radiansPerDegree.toRat
        ≤ |p.latitude.toRat| * 1 := mul_le_mul_of_nonneg_left hle (abs_nonneg _)
      _ = |p.latitude.toRat| := mul_one _
      _ ≤ 90 := abs_le.mpr ⟨hlow', hhigh⟩
  have hsight : (90 : ℚ) ≤ Binary64.sight :=
    (by norm_num : (90 : ℚ) ≤ 2 ^ 7).trans (Binary64.two_pow_le_sight (by omega))
  exact (hlatitude.mul hradian (hproduct.trans hsight)).finite

end Position

namespace Elementary

open Binary64

variable {E : Elementary}

theorem KeepsZero.haversine_self (hE : E.KeepsZero) (p : Position) : E.haversine p p = 0 := by
  obtain ⟨-, hhalf, hsquare, hdegrees, -⟩ := zeros
  have hsine : (E.sin (0 / 2)).square = 0 := by rw [hhalf, hE.sin_zero, hsquare]
  have hcosine := hE.cos_square _ p.isFinite_radians
  simp only [haversine]
  rw [sub_self p.isFinite_radians, sub_self p.isFinite_longitude, hdegrees, hsine]
  exact zero_add (hasValue_mul_zero hcosine)

/-- No position is any distance from itself. -/
theorem KeepsZero.distance_self (hE : E.KeepsZero) (p : Position) : E.distance p p = 0 := by
  obtain ⟨-, -, -, -, hsmaller, hscaled, habs, -⟩ := zeros
  obtain ⟨altitude, haltitude, -⟩ := p.altitude_nonneg
  have hsurface : E.surfaceDistance p p = 0 := by
    rw [surfaceDistance, hE.haversine_self, hE.sqrt_zero, hsmaller, hE.asin_zero, hscaled]
  rw [distance, hsurface, sub_self haltitude.finite, habs, hE.hypot_zero]

/-- The library's cosines are no more than one, so their squares are finite. -/
theorem isFinite_cos_square (x : Binary64) (h : x.isFinite = true) : (x.cos * x.cos).isFinite = true := by
  cases x with
  | nan => cases h
  | infinity s => cases h
  | finite s u f =>
    obtain ⟨p, hp, hle⟩ := exists_hasValue_held hasValue_one (cosineOf (.finite false u f))
    rw [abs_one] at hle
    have hsight : |p * p| ≤ sight := by
      rw [abs_mul]
      calc |p| * |p| ≤ 1 := mul_le_one₀ hle (abs_nonneg p) hle
        _ ≤ sight := two_pow_le_sight (k := 0) (by omega)
    exact (hp.mul hp hsight).finite

theorem keepsZero_own : own.KeepsZero := by
  obtain ⟨-, -, -, -, -, -, -, hsin, hasin, hsqrt, hhypot⟩ := zeros
  exact ⟨hsin, hasin, hsqrt, hhypot, isFinite_cos_square⟩

end Elementary

theorem Position.distance_self (p : Position) : p.distance p = 0 := by
  rw [← Elementary.distance_own]
  exact Elementary.keepsZero_own.distance_self p

/-! ## Evaluations -/

/-- The delay in the other direction. -/
def DelayResult.turned (r : DelayResult) : DelayResult := { r with source := r.target, target := r.source }

/-- Evaluated in the other direction, two nodes have the same delay, and it leaves the same memory. -/
theorem Memory.evaluate_turned (m : Memory) (env : Environment) (a b : Node) :
    m.evaluate env b a = ((m.evaluate env a b).1.map DelayResult.turned, (m.evaluate env a b).2) := by
  have hcompute : compute env b a = compute env a b := by
    have hab := a.position.isFinite_distance b.position
    simp only [compute, Position.distance_comm b.position, hab, if_true]
  obtain ⟨computed, hcomputed⟩ : ∃ computed, compute env a b = .ok computed :=
    ⟨_, if_pos (a.position.isFinite_distance b.position)⟩
  simp only [evaluate, NodePair.of_comm b.id, hcompute, hcomputed]
  cases m.delays.get? (.of a.id b.id) env.now <;> rfl

/-! ## Requests -/

/-- Two ways to be answered for the two directions of a delay: one delay, told either way, or no delay for
    either; the service afterwards is the same. -/
structure TurnedResults (x y : Except Fault DelayResult × Service) : Prop where
  delay_eq : y.1.toOption = x.1.toOption.map DelayResult.turned
  service_eq : y.2 = x.2

namespace Service

variable {s : Service} {source target : String} {fault : Fault}

theorem delay_of_fault (h : s.env.answer source = .error fault ∨ s.env.answer target = .error fault) :
    ∃ fault', s.delay source target = (.error fault', s) := by
  rw [delay_eq_delayVia]
  cases hsource : s.env.answer source with
  | error fault' => exact ⟨fault', delayVia_of_source_fault hsource⟩
  | ok a =>
    rcases h with h | h
    · rw [hsource] at h
      cases h
    · exact ⟨fault, delayVia_of_target_fault hsource h⟩

theorem delay_of_found {a b : Node} (ha : s.env.answer source = .ok a) (hb : s.env.answer target = .ok b) :
    s.delay source target =
      ((s.memory.evaluate s.env a b).1, s.remember (s.memory.evaluate s.env a b).2) := by
  rw [delay_eq_delayVia, delayVia_of_found ha hb]
  rfl

theorem delayWithin_eq (s : Service) (deadline : Duration) (source target : String) :
    s.delayWithin deadline source target =
      if s.env.port.waitForDelay source target ≤ deadline.nanos then s.delay source target
      else (.error (.deadlineExceeded deadline), s) := by
  rw [delayWithin_eq_delayWithinVia, delayWithinVia_eq, delay_eq_delayVia]

/-- Two ids are found, or either lookup fails. -/
theorem found_or_fault (s : Service) (source target : String) :
    (∃ a b, s.env.answer source = .ok a ∧ s.env.answer target = .ok b) ∨
      ∃ fault, s.env.answer source = .error fault ∨ s.env.answer target = .error fault := by
  cases s.env.answer source with
  | error fault => exact .inr ⟨fault, .inl rfl⟩
  | ok a =>
    cases s.env.answer target with
    | error fault => exact .inr ⟨fault, .inr rfl⟩
    | ok b => exact .inl ⟨a, b, rfl, rfl⟩

theorem turned_delay (s : Service) (source target : String) :
    TurnedResults (s.delay source target) (s.delay target source) := by
  rcases s.found_or_fault source target with ⟨a, b, ha, hb⟩ | ⟨fault, h⟩
  · rw [delay_of_found ha hb, delay_of_found hb ha, s.memory.evaluate_turned s.env a b]
    refine ⟨?_, rfl⟩
    cases (s.memory.evaluate s.env a b).1 <;> rfl
  · obtain ⟨first, hfirst⟩ := delay_of_fault h
    obtain ⟨second, hsecond⟩ := delay_of_fault h.symm
    rw [hfirst, hsecond]
    exact ⟨rfl, rfl⟩

/-- Both ids being found, their lookups take as long in either order; else there is no delay anyway. -/
theorem turned_delayWithin (s : Service) (deadline : Duration) (source target : String) :
    TurnedResults (s.delayWithin deadline source target) (s.delayWithin deadline target source) := by
  rw [delayWithin_eq, delayWithin_eq]
  rcases s.found_or_fault source target with ⟨a, b, ha, hb⟩ | ⟨fault, h⟩
  · have hwait : s.env.port.waitForDelay target source = s.env.port.waitForDelay source target := by
      simp only [Port.waitForDelay, Environment.port, ha, hb]
    rw [hwait]
    split
    · exact s.turned_delay source target
    · exact ⟨rfl, rfl⟩
  · obtain ⟨first, hfirst⟩ := delay_of_fault h
    obtain ⟨second, hsecond⟩ := delay_of_fault h.symm
    rw [hfirst, hsecond]
    split <;> split <;> exact ⟨rfl, rfl⟩

end Service

/-- The same request, or that for a delay in the other direction. -/
inductive Request.Turned : Request → Request → Prop where
  | same (r : Request) : Turned r r
  | delay (source target : String) : Turned (.delay source target) (.delay target source)
  | delayWithin (deadline : Duration) (source target : String) :
      Turned (.delayWithin deadline source target) (.delayWithin deadline target source)

/-- A request with its answer. -/
abbrev Exchange := Request × Answer

/-- The same exchange, or one for a delay in the other direction: its answer is the turned delay, or no
    delay where there was none. -/
inductive Exchange.Turned : Exchange → Exchange → Prop where
  | same (e : Exchange) : Turned e e
  | delay {source target : String} {x y : Except Fault DelayResult}
      (h : y.toOption = x.toOption.map DelayResult.turned) :
      Turned (.delay source target, .delay x) (.delay target source, .delay y)
  | delayWithin {deadline : Duration} {source target : String} {x y : Except Fault DelayResult}
      (h : y.toOption = x.toOption.map DelayResult.turned) :
      Turned (.delayWithin deadline source target, .delay x) (.delayWithin deadline target source, .delay y)

namespace Request.Turned

variable {r r' : Request}

/-- Both are answered for their directions, and leave the same service. -/
theorem serve (h : Turned r r') (s : Service) :
    (s.serve r').2 = (s.serve r).2 ∧ Exchange.Turned (r, (s.serve r).1) (r', (s.serve r').1) := by
  cases h with
  | same => exact ⟨rfl, .same _⟩
  | delay source target =>
    obtain ⟨hdelay, hservice⟩ := s.turned_delay source target
    exact ⟨hservice, .delay hdelay⟩
  | delayWithin deadline source target =>
    obtain ⟨hdelay, hservice⟩ := s.turned_delayWithin deadline source target
    exact ⟨hservice, .delayWithin hdelay⟩

/-- However one of them is served, the other may be served so too. -/
theorem serves (h : Turned r r') {s s' : Service} {history : List Happening} {answer : Answer}
    (hserves : s.Serves r history answer s') :
    ∃ history' answer', s.Serves r' history' answer' s' ∧ Exchange.Turned (r, answer) (r', answer') := by
  have hturned := h.serve s
  have halone (hr : r.isBatch = false) (hr' : r'.isBatch = false) : ∃ history' answer',
      s.Serves r' history' answer' s' ∧ Exchange.Turned (r, answer) (r', answer') := by
    obtain ⟨-, hserved⟩ := hserves.of_alone hr
    obtain ⟨rfl, rfl⟩ := Prod.mk.inj hserved
    have hother : s.Serves r' (s.history r') (s.serve r').1 (s.serve r').2 := .alone hr'
    rw [hturned.1] at hother
    exact ⟨_, _, hother, hturned.2⟩
  cases h with
  | same => exact ⟨history, answer, hserves, .same _⟩
  | delay source target => exact halone rfl rfl
  | delayWithin deadline source target => exact halone rfl rfl

end Request.Turned

/-! ## Runs -/

namespace Service

variable {clock : Instant → Instant → Prop} {start s : Service} {requests requests' : List Request}

theorem serveAll_turned (h : List.Forall₂ Request.Turned requests requests') (s : Service) :
    (s.serveAll requests').2 = (s.serveAll requests).2 ∧
      List.Forall₂ Exchange.Turned (requests.zip (s.serveAll requests).1)
        (requests'.zip (s.serveAll requests').1) := by
  induction h generalizing s with
  | nil => exact ⟨rfl, .nil⟩
  | @cons r r' _ _ hfirst _ ih =>
    obtain ⟨hservice, hexchange⟩ := hfirst.serve s
    obtain ⟨hrest, hexchanges⟩ := ih (s.serve r).2
    simp only [serveAll, hservice, List.zip_cons_cons]
    exact ⟨hrest, .cons hexchange hexchanges⟩

theorem Run.length_answers {history : List Happening} {answers : List Answer}
    (hrun : Run clock start requests history answers s) : requests.length = answers.length := by
  induction hrun with
  | nil => rfl
  | snoc _ _ _ ih => rw [List.length_append, List.length_append, ih, List.length_singleton,
      List.length_singleton]

theorem Run.of_turned {history : List Happening} {answers : List Answer}
    (hrun : Run clock start requests history answers s)
    (h : List.Forall₂ Request.Turned requests requests') :
    ∃ history' answers', Run clock start requests' history' answers' s ∧
      List.Forall₂ Exchange.Turned (requests.zip answers) (requests'.zip answers') := by
  induction hrun generalizing requests' with
  | nil =>
    cases h
    exact ⟨[], [], .nil, .nil⟩
  | snoc hearlier serves hclock ih =>
    obtain ⟨earlier, r', rfl, hturned, hr⟩ := forall₂_snoc h
    obtain ⟨history', answers', hrun', hexchanges⟩ := ih hturned
    obtain ⟨later', answer', hserves', hexchange⟩ := hr.serves serves
    refine ⟨history' ++ later', answers' ++ [answer'], .snoc hrun' hserves' hclock, ?_⟩
    rw [List.zip_append hearlier.length_answers, List.zip_append hrun'.length_answers]
    exact List.rel_append hexchanges (.cons hexchange .nil)

end Service

open Service in
/-- Over any functions of which the sine is odd, the distance of two positions is the same number in both
    directions; and where zero is its own sine, inverse sine, root and length, no position is any distance
    from itself. So it is over the library's own functions. Two nodes have the same delay in both
    directions, whatever is stored, and evaluating it leaves the same memory. So if any requests for delays
    are turned round, they get the same delays, told for their directions, or none as before, all others get
    the same answers, and the service ends in the same state; the same runs are possible for both. -/
theorem directions_are_alike :
    (∀ E : Elementary, (∀ x, E.sin (-x) = -E.sin x) → ∀ a b, E.distance a b = E.distance b a) ∧
    (∀ E : Elementary, E.KeepsZero → ∀ p, E.distance p p = 0) ∧
    (∀ a b : Position, a.distance b = b.distance a) ∧
    (∀ p : Position, p.distance p = 0) ∧
    (∀ (m : Memory) env a b,
      m.evaluate env b a = ((m.evaluate env a b).1.map DelayResult.turned, (m.evaluate env a b).2)) ∧
    ∀ {requests requests'}, List.Forall₂ Request.Turned requests requests' → ∀ s,
      ((s.serveAll requests').2 = (s.serveAll requests).2 ∧
        List.Forall₂ Exchange.Turned (requests.zip (s.serveAll requests).1)
          (requests'.zip (s.serveAll requests').1)) ∧
      ∀ {history answers s'}, Run anyTime s requests history answers s' →
        ∃ history' answers', Run anyTime s requests' history' answers' s' ∧
          List.Forall₂ Exchange.Turned (requests.zip answers) (requests'.zip answers') :=
  ⟨fun _ hodd => Elementary.distance_comm hodd, fun _ hE => hE.distance_self, Position.distance_comm,
    Position.distance_self, Memory.evaluate_turned,
    fun hturned s => ⟨serveAll_turned hturned s, fun hrun => hrun.of_turned hturned⟩⟩

/-! ## Up and down -/

open TwoNodes

/-- The way up is asked for first, or the way down; the timing afterwards is the same. -/
theorem directions_are_alike_two_nodes :
    let s := service 20000000 high_ok
    let up : List Request := [.delay "a" "b", .consensusTiming ["a", "b"]]
    let down : List Request := [.delay "b" "a", .consensusTiming ["a", "b"]]
    (∀ x, Elementary.own.sin (-x) = -Elementary.own.sin x) ∧ Elementary.own.KeepsZero ∧
    Elementary.own.distance lower.position (upper _ high_ok).position =
      Elementary.own.distance (upper _ high_ok).position lower.position ∧
    Elementary.own.distance lower.position lower.position = 0 ∧
    List.Forall₂ Request.Turned up down ∧ (s.serveAll down).2 = (s.serveAll up).2 ∧
    (∃ r, (s.delay "a" "b").1 = .ok r) := by
  intro s up down
  obtain ⟨hcomm, hself, -, -, -, hruns⟩ := directions_are_alike
  have hturned : List.Forall₂ Request.Turned up down := .cons (.delay "a" "b") (.cons (.same _) .nil)
  have hdelay : ∃ r, (s.delay "a" "b").1 = .ok r := by
    obtain ⟨computed, hcomputed⟩ := evaluate_first finite_high
    rw [Service.delay_of_found answer_lower answer_upper]
    exact ⟨_, hcomputed⟩
  exact ⟨Elementary.own_sin_neg, Elementary.keepsZero_own, hcomm _ Elementary.own_sin_neg _ _,
    hself _ Elementary.keepsZero_own _, hturned, (hruns hturned s).1.1, hdelay⟩

end LightCone

import LightCone.Proofs.InstantText
import LightCone.Proofs.Json.Fields

/-!
Records come back from their documents.

This file

1. takes durations, instants and states out of the values that they are put into;
2. does so for each record without binary64 numbers, field by field in the order of its shape, and for
   subjects, whose kind comes first (`comesBack_kind`);
3. concludes for their documents (`parse_render_records`).

Binary64 numbers are not among them: their texts are shortened, which is another matter.
-/
namespace LightCone.Json

open Shape

/-! ## Durations, instants and states -/

theorem comesBack_duration (d : Duration) : ComesBack encodeDuration decodeDuration d := by
  have hlimit := d.lt_limit
  have hsecs : d.secs < wordLimit := by
    unfold Duration.limit at hlimit
    unfold Duration.secs nanosPerSecond wordLimit
    omega
  have hnanos : d.subsecNanos < nanosPerSecond := Nat.mod_lt _ (by decide)
  have hself : d.secs * nanosPerSecond + d.subsecNanos = d.nanos := by
    rw [Nat.mul_comm]
    exact Nat.div_add_mod d.nanos nanosPerSecond
  have hreads : Reads durationShape [("secs", natural d.secs), ("nanos", natural d.subsecNanos)]
      (d.secs, d.subsecNanos) :=
    (reads_field "secs" (comesBack_word hsecs)).map Prod.mk
      |>.seq (reads_field "nanos" (comesBack_natural (by decide) (Nat.lt_trans hnanos (by decide))))
  refine ⟨hreads.isPlain_object, ?_⟩
  unfold decodeDuration encodeDuration
  rw [hreads.decodeWith (by simp) true]
  have hfits : d.secs + d.subsecNanos / nanosPerSecond < wordLimit := by
    rw [Nat.div_eq_of_lt hnanos]
    exact hsecs
  dsimp only [bind, Except.bind]
  rw [if_pos hfits, hself, Duration.ofNanos_nanos]

theorem comesBack_instant {t : Instant} (h : t.leap = false) :
    ComesBack encodeInstant decodeInstant t := by
  refine ⟨rfl, ?_⟩
  have htext : t.text.toList = t.textChars := String.toList_ofList
  unfold decodeInstant encodeInstant Value.text
  simp only [decodeText, bind, Except.bind, htext, Instant.read?_textChars h]

theorem comesBack_state (s : SyncState) : ComesBack encodeState decodeState s := by
  refine ⟨rfl, ?_⟩
  cases s <;> rfl

/-! ## Records -/

theorem text_ne_null (text : String) : Value.text text ≠ .null := Value.noConfusion

theorem encodeInstant_ne_null (t : Instant) : encodeInstant t ≠ .null := Value.noConfusion

theorem encodeDuration_ne_null (d : Duration) : encodeDuration d ≠ .null := Value.noConfusion

theorem comesBack_status {s : SyncStatus} (hsuccesses : s.successes < wordLimit)
    (hfailures : s.failures < wordLimit) (hlast : ∀ t, s.lastSync = some t → t.leap = false)
    (hupdated : s.updatedAt.leap = false) : ComesBack encodeStatus statusShape.decode s := by
  have hlastSync := comesBack_option (fun t ht => comesBack_instant (hlast t ht))
    encodeInstant_ne_null
  have hlastOffset := comesBack_option (a := s.lastOffset) (fun d _ => comesBack_duration d)
    encodeDuration_ne_null
  have hlastError := comesBack_option (a := s.lastError) (fun text _ => comesBack_text text)
    text_ne_null
  have hhistory := comesBack_list s.history fun d _ => comesBack_duration d
  have hreads := (reads_field "node_id" (comesBack_text s.id)).map SyncStatus.mk
    |>.seq (reads_optional "last_sync" hlastSync)
    |>.seq (reads_field "sync_count" (comesBack_word hsuccesses))
    |>.seq (reads_field "failure_count" (comesBack_word hfailures))
    |>.seq (reads_optional "last_offset" hlastOffset)
    |>.seq (reads_field "average_offset" (comesBack_duration s.average))
    |>.seq (reads_field "state" (comesBack_state s.state))
    |>.seq (reads_optional "last_error" hlastError)
    |>.seq (reads_field "history" hhistory)
    |>.seq (reads_field "updated_at" (comesBack_instant hupdated))
  exact hreads.comesBack rfl (by simp)

theorem comesBack_timing {t : ConsensusTiming} (hvalidators : t.validators < wordLimit)
    (hcomputed : t.computedAt.leap = false) : ComesBack encodeTiming timingShape.decode t := by
  have hreads := (reads_field "max_propagation_delay" (comesBack_duration t.maxDelay)).map
      ConsensusTiming.mk
    |>.seq (reads_field "safety_margin" (comesBack_duration t.margin))
    |>.seq (reads_field "block_time" (comesBack_duration t.blockTime))
    |>.seq (reads_field "optimal_clock_offset" (comesBack_duration t.clockOffset))
    |>.seq (reads_field "validator_count" (comesBack_word hvalidators))
    |>.seq (reads_field "computed_at" (comesBack_instant hcomputed))
    |>.seq (reads_field "fingerprint" (comesBack_text t.fingerprint))
  exact hreads.comesBack rfl (by simp)

theorem comesBack_timeouts (t : PhaseTimeouts) : ComesBack encodeTimeouts timeoutsShape.decode t := by
  have hreads := (reads_field "proposal" (comesBack_duration t.proposal)).map PhaseTimeouts.mk
    |>.seq (reads_field "vote" (comesBack_duration t.vote))
    |>.seq (reads_field "commit" (comesBack_duration t.commit))
    |>.seq (reads_field "view_change" (comesBack_duration t.viewChange))
  exact hreads.comesBack rfl (by simp)

theorem comesBack_tolerance {t : FaultTolerance} (htotal : t.total < wordLimit)
    (hbyzantine : t.byzantine < wordLimit) (hcrash : t.crash < wordLimit)
    (hquorum : t.quorum < wordLimit) : ComesBack encodeTolerance toleranceShape.decode t := by
  have hreads := (reads_field "total_nodes" (comesBack_word htotal)).map FaultTolerance.mk
    |>.seq (reads_field "byzantine_tolerance" (comesBack_word hbyzantine))
    |>.seq (reads_field "crash_tolerance" (comesBack_word hcrash))
    |>.seq (reads_field "quorum_size" (comesBack_word hquorum))
  exact hreads.comesBack rfl (by simp)

theorem comesBack_pair (p : NodePair) : ComesBack encodePair pairShape.decode p := by
  have hreads := (reads_field "first" (comesBack_text p.first)).map NodePair.mk
    |>.seq (reads_field "second" (comesBack_text p.second))
  exact hreads.comesBack rfl (by simp)

theorem comesBack_syncSettings {s : SyncSettings} (hlength : s.historyLength < wordLimit) :
    ComesBack encodeSyncSettings syncSettingsShape.decode s := by
  have hreads := (reads_field "interval" (comesBack_duration s.interval)).map SyncSettings.mk
    |>.seq (reads_field "status_retention" (comesBack_duration s.statusRetention))
    |>.seq (reads_field "history_len" (comesBack_word hlength))
  exact hreads.comesBack rfl (by simp)

/-! ## Subjects -/

theorem decodeKind_name (k : SubjectKind) : decodeKind (.text k.name) = .ok k := by
  cases k <;> rfl

/-- The field after the kind is kept until the kind is known. -/
theorem decodeSubject_object (k : SubjectKind) {name : String} {v : Value} (hname : name ≠ "kind")
    (hkeep : canKeep 1 v = true) :
    decodeSubject 0 (object [("kind", .text k.name), (name, v)]) =
      k.shape.decode (object [(name, v)]) := by
  have hsplit : splitKind 1 none [(some "kind", .text k.name), (some name, v)] =
      .ok (some k, [(some name, v)]) := by
    simp only [splitKind, if_true, decodeKind_name, bind, Except.bind, if_neg hname, hkeep]
  show decodeSubject 0 (.object [(some "kind", .text k.name), (some name, v)] true) = _
  simp only [decodeSubject, Nat.zero_add, hsplit, bind, Except.bind, if_true]
  rfl

/-- A subject comes back if its one field does. -/
theorem comesBack_kind {subject : Subject} (k : SubjectKind) {name : String} {v : Value}
    (hencode : encodeSubject subject = object [("kind", .text k.name), (name, v)])
    (hreads : Reads k.shape [(name, v)] subject) (hname : name ≠ "kind")
    (hkeep : canKeep 1 v = true) : ComesBack encodeSubject (decodeSubject 0) subject where
  plain := by
    have hplain := hreads.plain (name, v) List.mem_cons_self
    rw [hencode]
    show (true && (true && true && (true && v.isPlain && true))) = true
    rw [hplain]
    rfl
  decode_eq := by
    rw [hencode, decodeSubject_object k hname hkeep]
    exact hreads.decodeWith (by simp) false

theorem comesBack_subject {subject : Subject} (h : ∀ height, subject = .block height → height < wordLimit) :
    ComesBack encodeSubject (decodeSubject 0) subject := by
  cases subject with
  | block height =>
    exact comesBack_kind .block rfl
      ((reads_field "height" (comesBack_word (h height rfl))).map Subject.block) (by simp) rfl
  | transaction hash =>
    exact comesBack_kind .transaction rfl
      ((reads_field "hash" (comesBack_text hash)).map Subject.transaction) (by simp) rfl
  | heartbeat id =>
    exact comesBack_kind .heartbeat rfl
      ((reads_field "node_id" (comesBack_text id)).map Subject.heartbeat) (by simp) rfl

/-! ## Documents -/

/-- The compact document of each record without binary64 numbers is read as that record: with any
    texts, durations, options and lists, with counts of 64 bits, and with times outside leap seconds
    in any year of the calendar. -/
theorem parse_render_records :
    (∀ s : SyncStatus, s.successes < wordLimit → s.failures < wordLimit →
      (∀ t, s.lastSync = some t → t.leap = false) → s.updatedAt.leap = false →
      parse statusShape.decode (encodeStatus s).render = .ok s) ∧
    (∀ t : ConsensusTiming, t.validators < wordLimit → t.computedAt.leap = false →
      parse timingShape.decode (encodeTiming t).render = .ok t) ∧
    (∀ t : PhaseTimeouts, parse timeoutsShape.decode (encodeTimeouts t).render = .ok t) ∧
    (∀ t : FaultTolerance, t.total < wordLimit → t.byzantine < wordLimit → t.crash < wordLimit →
      t.quorum < wordLimit → parse toleranceShape.decode (encodeTolerance t).render = .ok t) ∧
    (∀ p : NodePair, parse pairShape.decode (encodePair p).render = .ok p) ∧
    (∀ subject : Subject, (∀ height, subject = .block height → height < wordLimit) →
      parse (decodeSubject 0) (encodeSubject subject).render = .ok subject) ∧
    ∀ s : SyncSettings, s.historyLength < wordLimit →
      parse syncSettingsShape.decode (encodeSyncSettings s).render = .ok s := by
  refine ⟨?_, ?_, ?_, ?_, ?_, ?_, ?_⟩
  · intro s hsuccesses hfailures hlast hupdated
    exact (comesBack_status hsuccesses hfailures hlast hupdated).parse_render
  · intro t hvalidators hcomputed
    exact (comesBack_timing hvalidators hcomputed).parse_render
  · intro t
    exact (comesBack_timeouts t).parse_render
  · intro t htotal hbyzantine hcrash hquorum
    exact (comesBack_tolerance htotal hbyzantine hcrash hquorum).parse_render
  · intro p
    exact (comesBack_pair p).parse_render
  · intro subject hheight
    exact (comesBack_subject hheight).parse_render
  · intro s hlength
    exact (comesBack_syncSettings hlength).parse_render

/-- The first instant of the calendar. -/
def firstInstant : Instant := ⟨Instant.earliestNanos, false, by decide⟩

/-- A status with values at their limits, and with characters that are escaped. -/
def farStatus : SyncStatus :=
  ⟨"a\"\\\n\x01é", some firstInstant, wordLimit - 1, 0, some .longest, .longest, .failed, some "",
    [.zero, .longest], .latest⟩

/-- A timing with values at their limits. -/
def farTiming : ConsensusTiming := ⟨.longest, .zero, .longest, .zero, wordLimit - 1, .latest, "ff"⟩

theorem parse_render_records_far :
    parse statusShape.decode (encodeStatus farStatus).render = .ok farStatus ∧
    parse timingShape.decode (encodeTiming farTiming).render = .ok farTiming ∧
    parse toleranceShape.decode (encodeTolerance (.of 4)).render = .ok (.of 4) ∧
    parse (decodeSubject 0) (encodeSubject (.block 7)).render = .ok (.block 7) ∧
    parse syncSettingsShape.decode (encodeSyncSettings {}).render = .ok {} := by
  obtain ⟨hstatus, htiming, -, htolerance, -, hsubject, hsettings⟩ := parse_render_records
  refine ⟨hstatus farStatus (by decide) (by decide) ?_ rfl, htiming farTiming (by decide) rfl,
    htolerance (.of 4) (by decide) (by decide) (by decide) (by decide), hsubject (.block 7) ?_,
    hsettings {} (by decide)⟩
  · rintro t ⟨⟩
    rfl
  · rintro height ⟨⟩
    decide

end LightCone.Json

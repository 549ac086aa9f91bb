import ArgumentMap.Proofs.Channel.History
import Mathlib.Data.List.TakeWhile

/-!
# Recorders keep what was published

A recorder hears through one subscription. As long as that one lives, each call moves
events from the run into the recorder or out of it, and the account balances: what was
handed out and what is still held are the events published since it was started, as far
as it keeps their topics.
-/

namespace ArgumentMap

namespace Subscription

def feeds (place : Nat) (s : Subscription) : Bool := s.sink.any (·.1 = place)

def keep (e : Event) (s : Subscription) : List Event :=
  match s.sink with
  | some (_, topics) => if keeps topics e then [e] else []
  | none => []

end Subscription

namespace Channel

def feeders (c : Channel) (place : Nat) : List Subscription :=
  c.subscriptions.filter (·.feeds place)

def arriving (c : Channel) (place : Nat) (e : Event) : List Event :=
  ((c.feeders place).filter (·.wants e)).flatMap (·.keep e)

def handed (place : Nat) : Call → Answer → List Event
  | .take other, .taken events => if other = place then events else []
  | _, _ => []

/-- All that the calls of a run take out of the recorder at the given place, in order. -/
def drained (place : Nat) : Channel → List Call → List Event
  | _, [] => []
  | c, call :: calls =>
    handed place call (perform call c).1 ++ drained place (perform call c).2 calls

def published (calls : List Call) : List Event := calls.filterMap (·.published)

section
variable {c : Channel} {place : Nat} {call : Call}

theorem getD_feed (e : Event) (s : Subscription) {logs : List (List Event)}
    (hplace : place < logs.length) :
    (s.feed e logs)[place]?.getD [] =
      logs[place]?.getD [] ++ if s.feeds place then s.keep e else [] := by
  cases hsink : s.sink with
  | none => simp [Subscription.feed, Subscription.feeds, hsink]
  | some sink =>
    obtain ⟨other, topics⟩ := sink
    simp only [Subscription.feed, Subscription.feeds, Subscription.keep, hsink, Option.any_some]
    by_cases hkeeps : Subscription.keeps topics e <;> by_cases hother : other = place <;>
      simp [hkeeps, hother, hplace]

theorem getD_foldl_feed (e : Event) (subscriptions : List Subscription)
    {logs : List (List Event)} (hplace : place < logs.length) :
    (subscriptions.foldl (Subscription.feed e) logs)[place]?.getD [] =
      logs[place]?.getD [] ++ (subscriptions.filter (·.feeds place)).flatMap (·.keep e) := by
  induction subscriptions generalizing logs with
  | nil => simp
  | cons s subscriptions ih =>
    rw [List.foldl_cons, ih (by rwa [length_feed]), getD_feed e s hplace, List.append_assoc]
    cases hs : s.feeds place <;> simp [hs]

theorem recorded_publish (hplace : place < c.logs.length) (e : Event) :
    (c.publish e).2.recorded place = c.recorded place ++ c.arriving place e := by
  have hfeeders : (c.feeders place).filter (·.wants e) =
      (c.subscriptions.filter (·.wants e)).filter (·.feeds place) := by
    simp only [feeders, List.filter_filter, Bool.and_comm]
  rw [arriving, hfeeders]
  exact getD_foldl_feed e _ hplace

theorem handed_append_recorded (hplace : place < c.logs.length) (call : Call) :
    handed place call (perform call c).1 ++ (perform call c).2.recorded place =
      c.recorded place ++ call.published.toList.flatMap (c.arriving place) := by
  cases call with
  | subscribe topic => exact (List.append_nil _).symm
  | record topics =>
    have hlog : (c.logs ++ [[]])[place]? = c.logs[place]? := List.getElem?_append_left hplace
    change (c.logs ++ [[]])[place]?.getD [] = c.recorded place ++ []
    rw [hlog, List.append_nil, recorded]
  | unsubscribe number => exact (List.append_nil _).symm
  | publish e =>
    change (c.publish e).2.recorded place = c.recorded place ++ (c.arriving place e ++ [])
    rw [List.append_nil, recorded_publish hplace]
  | notify n =>
    change (c.publish (.notice n)).2.recorded place =
      c.recorded place ++ (c.arriving place (.notice n) ++ [])
    rw [List.append_nil, recorded_publish hplace]
  | take other =>
    change (if other = place then c.recorded other else []) ++ (c.logs.set other [])[place]?.getD []
      = c.recorded place ++ []
    by_cases h : other = place
    · subst h
      simp [hplace]
    · simp [h, recorded]

theorem recorded_take (c : Channel) (place other : Nat) :
    (c.take place).2.recorded other = if other = place then [] else c.recorded other := by
  rw [take, recorded]
  by_cases h : other = place
  · by_cases hplace : place < c.logs.length <;> simp [h, hplace]
  · simp [h, List.getElem?_set_ne (Ne.symm h), recorded]

theorem feeders_perform (hplace : place < c.logs.length) (call : Call) :
    (perform call c).2.feeders place =
      (c.feeders place).filter fun s => call ≠ .unsubscribe s.id := by
  cases call with
  | subscribe topic => simp [perform, subscribe, add, feeders, Subscription.feeds]
  | record topics =>
    simp [perform, record, add, feeders, Subscription.feeds, Nat.ne_of_gt hplace]
  | unsubscribe number =>
    simp [perform, unsubscribe, feeders, Bool.and_comm, eq_comm]
  | _ => simp [perform, publish, notify, take, feeders]

theorem length_logs_le (call : Call) (c : Channel) :
    c.logs.length ≤ (perform call c).2.logs.length := by
  cases call with
  | record topics => exact (List.length_append).symm ▸ Nat.le_add_right _ _
  | publish e => exact Nat.le_of_eq (length_foldl_feed e _ _).symm
  | notify n => exact Nat.le_of_eq (length_foldl_feed (.notice n) _ _).symm
  | take other => exact Nat.le_of_eq List.length_set.symm
  | _ => exact Nat.le_refl _

theorem published_cons (call : Call) (calls : List Call) :
    published (call :: calls) = call.published.toList ++ published calls := by
  cases h : call.published <;> simp [published, h]

theorem balance_cons (hplace : place < c.logs.length) (call : Call) {calls : List Call}
    {held : List Event}
    (h : drained place (perform call c).2 calls ++
        ((perform call c).2.after calls).recorded place =
      (perform call c).2.recorded place ++ held) :
    drained place c (call :: calls) ++ (c.after (call :: calls)).recorded place =
      c.recorded place ++ (call.published.toList.flatMap (c.arriving place) ++ held) := by
  rw [drained, after_cons, List.append_assoc, h, ← List.append_assoc,
    handed_append_recorded hplace, List.append_assoc]

theorem balance_of_unfed (hplace : place < c.logs.length) (hfed : c.feeders place = [])
    (calls : List Call) :
    drained place c calls ++ (c.after calls).recorded place = c.recorded place := by
  induction calls generalizing c with
  | nil => rfl
  | cons call calls ih =>
    have hnext := ih (Nat.lt_of_lt_of_le hplace (length_logs_le call c))
      (by rw [feeders_perform hplace, hfed, List.filter_nil])
    have harriving : call.published.toList.flatMap (c.arriving place) = [] := by
      simp [arriving, hfed]
    rw [balance_cons hplace call (hnext.trans (List.append_nil _).symm), harriving,
      List.append_nil, List.append_nil]

theorem balance_of_fed (hplace : place < c.logs.length) {number : Nat} {topics : List Topic}
    (hfed : c.feeders place = [{ id := number, sink := some (place, topics) }])
    (calls : List Call) :
    drained place c calls ++ (c.after calls).recorded place = c.recorded place ++
      (published (calls.takeWhile (· ≠ .unsubscribe number))).filter
        (Subscription.keeps topics) := by
  induction calls generalizing c with
  | nil => simp [drained, published]
  | cons call calls ih =>
    have hplace' := Nat.lt_of_lt_of_le hplace (length_logs_le call c)
    have harriving : call.published.toList.flatMap (c.arriving place) =
        call.published.toList.filter (Subscription.keeps topics) := by
      cases call.published with
      | none => rfl
      | some e =>
        cases hkeeps : Subscription.keeps topics e <;>
          simp [arriving, hfed, Subscription.wants, Subscription.keep, hkeeps]
    by_cases hend : call = .unsubscribe number
    · subst hend
      have hnone := balance_of_unfed hplace'
        (by rw [feeders_perform hplace, hfed, List.filter_cons_of_neg (by simp), List.filter_nil])
        calls
      rw [balance_cons hplace _ (hnone.trans (List.append_nil _).symm), harriving]
      simp [Call.published, published]
    · have hnext := ih hplace' (by rw [feeders_perform hplace, hfed]; simp [hend])
      rw [balance_cons hplace call hnext, harriving, List.takeWhile_cons_of_pos (by simp [hend]),
        published_cons, List.filter_append]

theorem Sound.feeders_record (hc : c.Sound) (topics : List Topic) :
    (c.record topics).2.feeders c.logs.length =
      [{ id := c.nextId, sink := some (c.logs.length, topics) }] := by
  have hold : c.subscriptions.filter (·.feeds c.logs.length) = [] := by
    refine List.filter_eq_nil_iff.2 fun s hs hfeeds => ?_
    obtain ⟨place, topics, hsink, hplace⟩ :
        ∃ place topics, s.sink = some (place, topics) ∧ place = c.logs.length := by
      simpa [Subscription.feeds, Option.any_eq_true] using hfeeds
    exact Nat.ne_of_lt (hc.placed s hs place topics hsink) hplace
  have hnew : (c.record topics).2.feeders c.logs.length =
      c.subscriptions.filter (·.feeds c.logs.length) ++
        [{ id := c.nextId, sink := some (c.logs.length, topics) }] := by
    rw [feeders]
    change (c.subscriptions ++ [_]).filter _ = _
    rw [List.filter_append, List.filter_cons_of_pos (by simp [Subscription.feeds]), List.filter_nil]
  rw [hnew, hold, List.nil_append]

theorem recorded_record (topics : List Topic) :
    (c.record topics).2.recorded c.logs.length = [] := by
  simp [recorded, record]

/-- Whoever ends a subscription was told its number by the call that made it. The number of a
recorder's subscription is told to nobody. -/
def Told (calls : List Call) : Prop :=
  ∀ earlier number since, calls = earlier ++ .unsubscribe number :: since →
    ∃ first topic rest, earlier = first ++ .subscribe topic :: rest ∧ issued first = number

theorem Told.not_mem {calls later : List Call} {topics : List Topic}
    (h : Told (calls ++ .record topics :: later)) : .unsubscribe (issued calls) ∉ later := by
  intro hmem
  obtain ⟨before, after, rfl⟩ := List.append_of_mem hmem
  obtain ⟨first, topic, rest, hsplit, hnumber⟩ :=
    h (calls ++ .record topics :: before) (issued calls) after (by simp)
  have hsame := eq_of_issued_eq hsplit rfl rfl hnumber.symm
  cases hsame.1

theorem keeps_eq (topics : List Topic) :
    Subscription.keeps topics = fun e => decide (topics = [] ∨ e.topic ∈ topics) := by
  funext e
  cases topics <;> simp [Subscription.keeps]

theorem balance_record (calls : List Call) (topics : List Topic) (later : List Call) :
    drained (recorders calls) (after {} (calls ++ [.record topics])) later ++
        (after {} (calls ++ .record topics :: later)).recorded (recorders calls) =
      (published (later.takeWhile (· ≠ .unsubscribe (issued calls)))).filter
        fun e => topics = [] ∨ e.topic ∈ topics := by
  have hagrees := agrees_after calls
  have hfed := (sound_empty.after calls).feeders_record topics
  have hplace : (after {} calls).logs.length < ((after {} calls).record topics).2.logs.length := by
    simp [record]
  have hbalance := balance_of_fed hplace hfed later
  rw [recorded_record, List.nil_append, keeps_eq, hagrees.logs, hagrees.nextId] at hbalance
  rw [after_append, after_append]
  exact hbalance

/-- What a channel answers is decided by the calls that were made before. -/
structure Faithful (calls : List Call) (c : Channel) : Prop where
  /-- An event goes once to each live subscription that wants it, oldest first. -/
  delivers : ∀ e, ∃ ids, (perform (.publish e) c).1 = .delivered ids ∧ ids.Pairwise (· < ·) ∧
    ∀ number, number ∈ ids ↔
      ∃ topic, Live calls number topic ∧ (topic = none ∨ topic = some e.topic)
  notifies : ∀ n, perform (.notify n) c = perform (.publish (.notice n)) c
  numbers : ∀ topic, (perform (.subscribe topic) c).1 = .subscribed (issued calls)
  /-- No number is given out twice: a new one is above all earlier ones. -/
  fresh : ∀ earlier call since, calls = earlier ++ call :: since → call.opens.isSome →
    issued earlier < issued calls
  finds : ∀ number, ∃ found, (perform (.unsubscribe number) c).1 = .unsubscribed found ∧
    (found = true ↔ ∃ topic, Live calls number topic)
  /-- A subscription that was ended is not found again. -/
  ends : ∀ number later, (perform (.unsubscribe number) c).1 = .unsubscribed true →
    (perform (.unsubscribe number) (c.after (.unsubscribe number :: later))).1 =
      .unsubscribed false
  removes : ∀ number, (perform (.unsubscribe number) c).1 = .unsubscribed true →
    ∃ before s later, c.subscriptions = before ++ s :: later ∧ s.id = number ∧
      (perform (.unsubscribe number) c).2 = { c with subscriptions := before ++ later }
  spares : ∀ number, (perform (.unsubscribe number) c).1 = .unsubscribed false →
    (perform (.unsubscribe number) c).2 = c
  /-- A recorder hands out all that it holds and is empty then. Nothing else changes. -/
  takes : ∀ place, ∃ left, perform (.take place) c = (.taken (c.recorded place), left) ∧
    left.recorded place = [] ∧ (∀ other, other ≠ place → left.recorded other = c.recorded other) ∧
    left.subscriptions = c.subscriptions ∧ left.nextId = c.nextId
  /-- A recorder gives back what was published, until its own subscription is ended. -/
  keeps : ∀ topics later,
    let started := perform (.record topics) c
    started.1 = .recording (recorders calls) ∧
      drained (recorders calls) started.2 later ++
          (started.2.after later).recorded (recorders calls) =
        (published (later.takeWhile (· ≠ .unsubscribe (issued calls)))).filter
          fun e => topics = [] ∨ e.topic ∈ topics
  /-- It gives back all of it where numbers are used only by those who were told them. -/
  keepsAll : ∀ topics later, Told (calls ++ .record topics :: later) →
    let started := perform (.record topics) c
    drained (recorders calls) started.2 later ++
        (started.2.after later).recorded (recorders calls) =
      (published later).filter fun e => topics = [] ∨ e.topic ∈ topics

/-- Every channel reached from the empty one answers as its history says. -/
theorem faithful_after (calls : List Call) : Faithful calls (after {} calls) := by
  have ha := agrees_after calls
  have hs := sound_empty.after calls
  have hkeeps := balance_record calls
  simp only [after_append, after_cons, after_nil] at hkeeps
  refine
    { delivers := fun e => ⟨_, rfl, hs.pairwise_publish e, fun number => ha.mem_publish_iff⟩
      notifies := fun n => rfl
      numbers := fun topic => congrArg _ ha.nextId
      fresh := ?_
      finds := fun number => ⟨_, rfl, ha.unsubscribe_iff⟩
      ends := fun number later h => ?_
      removes := fun number h => hs.unsubscribe_eq_of_found (Answer.unsubscribed.inj h)
      spares := fun number h => unsubscribe_eq_of_not_found (Answer.unsubscribed.inj h)
      takes := fun place => ⟨_, rfl, (recorded_take _ place place).trans (if_pos rfl),
        fun other h => (recorded_take _ place other).trans (if_neg h), rfl, rfl⟩
      keeps := fun topics later => ⟨congrArg _ ha.logs, hkeeps topics later⟩
      keepsAll := fun topics later htold => ?_ }
  · rintro earlier call since rfl hopens
    obtain ⟨topic, hopens⟩ := Option.isSome_iff_exists.1 hopens
    exact issued_lt_of_opens hopens
  · obtain ⟨topic, hlive⟩ := ha.unsubscribe_iff.1 (Answer.unsubscribed.inj h)
    have hagain := agrees_after (calls ++ .unsubscribe number :: later)
    rw [after_append] at hagain
    refine congrArg _ (Bool.eq_false_iff.2 fun hfound => ?_)
    obtain ⟨topic, hlive'⟩ := hagain.unsubscribe_iff.1 hfound
    exact not_live_of_ended hlive.lt_issued later hlive'
  · have hall : later.takeWhile (· ≠ .unsubscribe (issued calls)) = later := by
      refine List.takeWhile_eq_self_iff.2 fun call hcall => ?_
      simpa using ne_of_mem_of_not_mem hcall htold.not_mem
    have hbalance := hkeeps topics later
    rwa [hall] at hbalance

theorem faithful_after_told :
    let later : List Call := [.unsubscribe 0, .notify (.rejected .selfLoop), .take 0,
      .publish (.nodeHighlighted ⟨"a"⟩), .notify (.rejected .nothingHighlighted)]
    let started := after {} [.subscribe none, .record [.notice]]
    Told ([.subscribe none] ++ .record [.notice] :: later) ∧
      drained 0 started later ++ (started.after later).recorded 0 =
        [.notice (.rejected .selfLoop), .notice (.rejected .nothingHighlighted)] := by
  intro later started
  have htold : Told ([.subscribe none] ++ .record [.notice] :: later) := by
    intro earlier number since h
    obtain ⟨rfl, rfl, -⟩ : earlier = [.subscribe none, .record [.notice]] ∧ number = 0 ∧ _ := by
      simpa [later, List.cons_eq_append_iff] using h
    exact ⟨[], none, [.record [.notice]], rfl, rfl⟩
  exact ⟨htold, ((faithful_after [.subscribe none]).keepsAll [.notice] later htold).trans rfl⟩

end

end Channel

end ArgumentMap

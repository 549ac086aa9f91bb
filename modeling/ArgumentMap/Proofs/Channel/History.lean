import ArgumentMap.Channel
import Mathlib.Data.List.Induction
import Mathlib.Tactic.Common

/-!
# What the history of a channel says about it

The calls made so far decide what a channel does next: which subscriptions are live,
what their numbers are, and who hears an event. `Live` says it by the calls alone, and
`Agrees` ties it to the state.
-/

namespace ArgumentMap

namespace Channel

/-- The topic of the subscription that a call makes, if it makes one. A recorder hears every
event and sorts out what it keeps. -/
def Call.opens : Call → Option (Option Topic)
  | subscribe topic => some topic
  | record _ => some none
  | _ => none

def Call.published : Call → Option Event
  | publish event => some event
  | notify notice => some (.notice notice)
  | _ => none

def issued (calls : List Call) : Nat := calls.countP (·.opens.isSome)

def recorders (calls : List Call) : Nat :=
  calls.countP fun
    | .record _ => true
    | _ => false

/-- After the calls, the subscription with the given number exists: it was made, and it was not
ended since. -/
def Live (calls : List Call) (number : Nat) (topic : Option Topic) : Prop :=
  ∃ earlier call since, calls = earlier ++ call :: since ∧ call.opens = some topic ∧
    issued earlier = number ∧ .unsubscribe number ∉ since

section
variable {calls : List Call} {call : Call} {c : Channel} {number : Nat} {topic : Option Topic}

theorem issued_append (calls more : List Call) :
    issued (calls ++ more) = issued calls + issued more :=
  List.countP_append

theorem issued_lt_of_opens {earlier since : List Call} (h : call.opens = some topic) :
    issued earlier < issued (earlier ++ call :: since) := by
  have hcons : issued (call :: since) = issued since + 1 := List.countP_cons_of_pos (by simp [h])
  rw [issued_append, hcons]
  omega

theorem eq_of_issued_eq {earlier earlier' since since' : List Call} {call call' : Call}
    {topic topic' : Option Topic} (hsplit : earlier ++ call :: since = earlier' ++ call' :: since')
    (h : call.opens = some topic) (h' : call'.opens = some topic')
    (hnumber : issued earlier = issued earlier') : call = call' ∧ since = since' := by
  rcases List.append_eq_append_iff.1 hsplit with ⟨more, rfl, hmore⟩ | ⟨more, rfl, hmore⟩
  · cases more with
    | nil => simpa using hmore
    | cons first more =>
      obtain ⟨rfl, -⟩ := List.cons.inj hmore
      exact absurd hnumber (Nat.ne_of_lt (issued_lt_of_opens h))
  · cases more with
    | nil => simpa [eq_comm] using hmore
    | cons first more =>
      obtain ⟨rfl, -⟩ := List.cons.inj hmore
      exact absurd hnumber (Nat.ne_of_gt (issued_lt_of_opens h'))

theorem Live.lt_issued (h : Live calls number topic) : number < issued calls := by
  obtain ⟨earlier, call, since, rfl, hopens, rfl, -⟩ := h
  exact issued_lt_of_opens hopens

@[simp] theorem not_live_nil : ¬ Live [] number topic := by
  rintro ⟨earlier, call, since, h, -⟩
  simp at h

theorem live_concat :
    Live (calls ++ [call]) number topic ↔
      (Live calls number topic ∧ call ≠ .unsubscribe number) ∨
        (call.opens = some topic ∧ issued calls = number) := by
  constructor
  · rintro ⟨earlier, made, since, hcalls, hopens, hnumber, hkept⟩
    rcases since.eq_nil_or_concat with rfl | ⟨since, last, rfl⟩
    · obtain ⟨rfl, rfl⟩ : calls = earlier ∧ call = made := by simpa using hcalls
      exact .inr ⟨hopens, hnumber⟩
    · have hsplit : calls ++ [call] = (earlier ++ made :: since) ++ [last] := by simp [hcalls]
      obtain ⟨rfl, hlast⟩ := List.append_inj' hsplit rfl
      obtain rfl := List.singleton_inj.1 hlast
      obtain ⟨hsince, hlast⟩ :
          Call.unsubscribe number ∉ since ∧ Call.unsubscribe number ≠ call := by simpa using hkept
      exact .inl ⟨⟨earlier, made, since, rfl, hopens, hnumber, hsince⟩, hlast.symm⟩
  · rintro (⟨⟨earlier, made, since, rfl, hopens, hnumber, hkept⟩, hcall⟩ | ⟨hopens, hnumber⟩)
    · refine ⟨earlier, made, since ++ [call], by simp, hopens, hnumber, ?_⟩
      simpa using ⟨hkept, hcall.symm⟩
    · exact ⟨calls, call, [], rfl, hopens, hnumber, by simp⟩

/-- The subscriptions of a channel bear increasing numbers that were given out, and feed recorders
that were started. -/
structure Sound (c : Channel) : Prop where
  ordered : c.subscriptions.Pairwise (·.id < ·.id)
  numbered : ∀ s ∈ c.subscriptions, s.id < c.nextId
  placed : ∀ s ∈ c.subscriptions, ∀ place topics, s.sink = some (place, topics) →
    place < c.logs.length

theorem sound_empty : Sound {} := by
  constructor <;> simp

theorem length_feed (e : Event) (logs : List (List Event)) (s : Subscription) :
    (s.feed e logs).length = logs.length := by
  rw [Subscription.feed]
  split
  · split_ifs <;> simp
  · rfl

theorem length_foldl_feed (e : Event) (subscriptions : List Subscription)
    (logs : List (List Event)) :
    (subscriptions.foldl (Subscription.feed e) logs).length = logs.length := by
  induction subscriptions generalizing logs with
  | nil => rfl
  | cons s subscriptions ih => rw [List.foldl_cons, ih, length_feed]

theorem Sound.add (hc : c.Sound) {sink : Option (Nat × List Topic)} {logs : List (List Event)}
    (hlogs : c.logs.length ≤ logs.length)
    (hsink : ∀ place topics, sink = some (place, topics) → place < logs.length) :
    Sound { (c.add topic sink).2 with logs := logs } where
  ordered := by
    refine List.pairwise_append.2 ⟨hc.ordered, List.pairwise_singleton .., fun s hs t ht => ?_⟩
    obtain rfl := List.mem_singleton.1 ht
    exact hc.numbered s hs
  numbered s hs := by
    rcases List.mem_append.1 hs with hs | hs
    · exact Nat.lt_succ_of_lt (hc.numbered s hs)
    · obtain rfl := List.mem_singleton.1 hs
      exact Nat.lt_succ_self _
  placed s hs place topics h := by
    rcases List.mem_append.1 hs with hs | hs
    · exact Nat.lt_of_lt_of_le (hc.placed s hs place topics h) hlogs
    · obtain rfl := List.mem_singleton.1 hs
      exact hsink place topics h

theorem Sound.of_sublist (hc : c.Sound) {subscriptions : List Subscription}
    (hs : subscriptions.Sublist c.subscriptions) {logs : List (List Event)}
    (hlogs : logs.length = c.logs.length) :
    Sound { c with subscriptions := subscriptions, logs := logs } where
  ordered := hc.ordered.sublist hs
  numbered s h := hc.numbered s (hs.subset h)
  placed s h place topics hsink := hlogs ▸ hc.placed s (hs.subset h) place topics hsink

theorem Sound.publish (hc : c.Sound) (e : Event) : (c.publish e).2.Sound :=
  hc.of_sublist (List.Sublist.refl _) (length_foldl_feed e _ _)

theorem Sound.perform (hc : c.Sound) (call : Call) : (Channel.perform call c).2.Sound := by
  cases call with
  | subscribe topic => exact hc.add (Nat.le_refl _) (by simp)
  | record topics =>
    refine hc.add (by simp) fun place kept h => ?_
    obtain ⟨rfl, -⟩ : c.logs.length = place ∧ topics = kept := by simpa using h
    simp
  | unsubscribe number => exact hc.of_sublist List.filter_sublist rfl
  | publish e => exact hc.publish e
  | notify n => exact hc.publish (.notice n)
  | take place => exact hc.of_sublist (List.Sublist.refl _) List.length_set

theorem Sound.after (hc : c.Sound) (calls : List Call) : (c.after calls).Sound := by
  induction calls generalizing c with
  | nil => exact hc
  | cons call calls ih => exact ih (hc.perform call)

structure Agrees (calls : List Call) (c : Channel) : Prop where
  nextId : c.nextId = issued calls
  logs : c.logs.length = recorders calls
  live : ∀ number topic, Live calls number topic ↔
    ∃ s ∈ c.subscriptions, s.id = number ∧ s.topic = topic

theorem agrees_empty : Agrees [] {} := by
  constructor <;> simp [issued, recorders]

theorem Call.ne_unsubscribe_of_opens (h : call.opens = some topic) :
    call ≠ .unsubscribe number := by
  rintro rfl
  cases h

theorem Agrees.live_of_opens (ha : Agrees calls c) {made : Option Topic}
    (hopens : call.opens = some made) (sink : Option (Nat × List Topic)) :
    Live (calls ++ [call]) number topic ↔
      ∃ s ∈ (c.add made sink).2.subscriptions, s.id = number ∧ s.topic = topic := by
  have hcall : call ≠ .unsubscribe number := call.ne_unsubscribe_of_opens hopens
  rw [live_concat, ha.live, hopens, ← ha.nextId, and_iff_left hcall]
  simp only [Channel.add, List.mem_append, List.mem_singleton, or_and_right, exists_or,
    exists_eq_left, Option.some.injEq]
  rw [and_comm (a := made = topic)]

theorem Agrees.live_unsubscribe (ha : Agrees calls c) (ended : Nat) :
    Live (calls ++ [.unsubscribe ended]) number topic ↔
      ∃ s ∈ (c.unsubscribe ended).2.subscriptions, s.id = number ∧ s.topic = topic := by
  rw [live_concat, ha.live]
  simp only [Channel.unsubscribe, List.mem_filter, Call.opens, reduceCtorEq, false_and, or_false,
    Call.unsubscribe.injEq, ne_eq, decide_eq_true_eq]
  constructor
  · rintro ⟨⟨s, hs, rfl, rfl⟩, hne⟩
    exact ⟨s, ⟨hs, Ne.symm hne⟩, rfl, rfl⟩
  · rintro ⟨s, ⟨hs, hne⟩, rfl, rfl⟩
    exact ⟨⟨s, hs, rfl, rfl⟩, Ne.symm hne⟩

theorem live_of_other (hopens : call.opens = none) (hcall : ∀ n, call ≠ .unsubscribe n) :
    Live (calls ++ [call]) number topic ↔ Live calls number topic := by
  simp [live_concat, hopens, hcall]

theorem Agrees.perform (ha : Agrees calls c) (call : Call) :
    Agrees (calls ++ [call]) (Channel.perform call c).2 := by
  refine ⟨?_, ?_, fun number topic => ?_⟩
  · rw [issued_append, ← ha.nextId]
    cases call <;> rfl
  · rw [recorders, List.countP_append, ← recorders, ← ha.logs]
    cases call with
    | record topics => exact List.length_append
    | publish e => exact length_foldl_feed e _ _
    | notify n => exact length_foldl_feed (.notice n) _ _
    | take place => exact List.length_set
    | _ => rfl
  · cases call with
    | subscribe made => exact ha.live_of_opens rfl none
    | record topics => exact ha.live_of_opens rfl (some (c.logs.length, topics))
    | unsubscribe ended => exact ha.live_unsubscribe ended
    | _ =>
      rw [live_of_other rfl (by simp), ha.live]
      rfl

theorem agrees_after (calls : List Call) : Agrees calls (after {} calls) := by
  induction calls using List.reverseRecOn with
  | nil => exact agrees_empty
  | append_singleton calls call ih =>
    rw [after_append]
    exact ih.perform call

theorem Sound.pairwise_publish (hc : c.Sound) (e : Event) : (c.publish e).1.Pairwise (· < ·) :=
  List.pairwise_map.2 (hc.ordered.filter _)

theorem Agrees.mem_publish_iff (ha : Agrees calls c) {e : Event} :
    number ∈ (c.publish e).1 ↔
      ∃ topic, Live calls number topic ∧ (topic = none ∨ topic = some e.topic) := by
  simp only [publish, List.mem_map, List.mem_filter, ha.live]
  constructor
  · rintro ⟨s, ⟨hs, hwants⟩, rfl⟩
    refine ⟨s.topic, ⟨s, hs, rfl, rfl⟩, ?_⟩
    cases ht : s.topic with
    | none => exact .inl rfl
    | some t => exact .inr (by simpa [Subscription.wants, ht] using hwants)
  · rintro ⟨topic, ⟨s, hs, rfl, rfl⟩, ht⟩
    refine ⟨s, ⟨hs, ?_⟩, rfl⟩
    rcases ht with ht | ht <;> simp [Subscription.wants, ht]

theorem Agrees.unsubscribe_iff (ha : Agrees calls c) :
    (c.unsubscribe number).1 = true ↔ ∃ topic, Live calls number topic := by
  simp only [unsubscribe, List.any_eq_true, decide_eq_true_eq, ha.live]
  constructor
  · rintro ⟨s, hs, rfl⟩
    exact ⟨s.topic, s, hs, rfl, rfl⟩
  · rintro ⟨topic, s, hs, rfl, -⟩
    exact ⟨s, hs, rfl⟩

theorem not_live_of_ended (h : number < issued calls) (later : List Call) :
    ¬ Live (calls ++ .unsubscribe number :: later) number topic := by
  rintro ⟨earlier, call, since, hsplit, -, rfl, hkept⟩
  rcases List.append_eq_append_iff.1 hsplit with ⟨more, rfl, -⟩ | ⟨more, rfl, hmore⟩
  · rw [issued_append] at h
    omega
  · cases more with
    | nil =>
      rw [List.append_nil] at h
      exact Nat.lt_irrefl _ h
    | cons first more =>
      obtain ⟨-, rfl⟩ : call = first ∧ since = more ++ .unsubscribe (issued earlier) :: later := by
        simpa using hmore
      simp at hkept

theorem unsubscribe_eq_of_not_found (h : (c.unsubscribe number).1 = false) :
    (c.unsubscribe number).2 = c := by
  have hkeep : c.subscriptions.filter (·.id ≠ number) = c.subscriptions :=
    List.filter_eq_self.2 (by simpa [unsubscribe] using h)
  rw [unsubscribe, hkeep]

theorem Sound.unsubscribe_eq_of_found (hc : c.Sound) (h : (c.unsubscribe number).1 = true) :
    ∃ before s later, c.subscriptions = before ++ s :: later ∧ s.id = number ∧
      (c.unsubscribe number).2 = { c with subscriptions := before ++ later } := by
  obtain ⟨s, hs, rfl⟩ : ∃ s ∈ c.subscriptions, s.id = number := by simpa [unsubscribe] using h
  obtain ⟨before, later, hsplit⟩ := List.append_of_mem hs
  have hordered := hc.ordered
  rw [hsplit, List.pairwise_append, List.pairwise_cons] at hordered
  obtain ⟨-, ⟨hlater, -⟩, hbefore⟩ := hordered
  refine ⟨before, s, later, hsplit, rfl, ?_⟩
  have hb : before.filter (·.id ≠ s.id) = before :=
    List.filter_eq_self.2 fun t ht => by
      simpa using Nat.ne_of_lt (hbefore t ht s List.mem_cons_self)
  have hl : later.filter (·.id ≠ s.id) = later :=
    List.filter_eq_self.2 fun t ht => by simpa using Nat.ne_of_gt (hlater t ht)
  have hkeep : c.subscriptions.filter (·.id ≠ s.id) = before ++ later := by
    rw [hsplit, List.filter_append, List.filter_cons_of_neg (by simp), hb, hl]
  rw [unsubscribe, hkeep]

end

end Channel

end ArgumentMap

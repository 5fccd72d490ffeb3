import DistSync.Queue.Transition

/-! The keys under which the queue keeps its lists and counters, and Redis as it is: one space of
keys, whose values are lists or numbers. Topics may hold any characters, but no two keys are the
same, so that no command meets a value of the wrong type, and each finds what it should. -/
namespace DistSync.Queue

inductive Family where
  | queue
  | dlq
  | offset
  | committed
deriving DecidableEq

def Family.name : Family → String
  | .queue => "queue"
  | .dlq => "dlq"
  | .offset => "offset"
  | .committed => "committed"

/-- `f"{family}:{topic}:{partition}"`. -/
def redisKey (f : Family) (home : TopicPartition) : String :=
  f.name ++ ":" ++ home.1 ++ ":" ++ toString home.2

def queueKey : TopicPartition → String := redisKey .queue

def dlqKey : TopicPartition → String := redisKey .dlq

def offsetKey : TopicPartition → String := redisKey .offset

def committedOffsetKey : TopicPartition → String := redisKey .committed

section Text

theorem split_last {α : Type} {c : α} {l l' r r' : List α} (hr : c ∉ r) (hr' : c ∉ r')
    (h : l ++ c :: r = l' ++ c :: r') : l = l' ∧ r = r' := by
  induction l generalizing l' with
  | nil =>
    cases l' with
    | nil => exact ⟨rfl, (List.cons.inj h).2⟩
    | cons a l' =>
      have hmem : c ∈ r := (List.cons.inj h).2 ▸ List.mem_append_right l' List.mem_cons_self
      exact absurd hmem hr
  | cons a l ih =>
    cases l' with
    | nil =>
      have hmem : c ∈ r' := (List.cons.inj h).2 ▸ List.mem_append_right l List.mem_cons_self
      exact absurd hmem hr'
    | cons b l' =>
      obtain ⟨hab, htail⟩ := List.cons.inj h
      obtain ⟨hl, hr⟩ := ih htail
      exact ⟨by rw [hab, hl], hr⟩

theorem isDigit_of_mem_repr {n : Nat} {c : Char} (hc : c ∈ n.repr.toList) : c.isDigit = true := by
  rw [Nat.toList_repr] at hc
  exact Nat.isDigit_of_mem_toDigits (by decide) (by decide) hc

theorem nat_repr_injective {m n : Nat} (h : m.repr = n.repr) : m = n := by
  have hdigits := congrArg String.toList h
  rw [Nat.toList_repr, Nat.toList_repr] at hdigits
  rw [← Nat.ofDigitChars_ten_toDigits (n := m), hdigits, Nat.ofDigitChars_ten_toDigits]

theorem toList_neg (n : Nat) : (toString (Int.negSucc n)).toList = '-' :: n.succ.repr.toList := by
  change ("-" ++ n.succ.repr).toList = _
  rw [String.toList_append]
  rfl

theorem colon_not_mem_toString (p : Int) : ':' ∉ (toString p).toList := by
  intro hc
  cases p with
  | ofNat n => exact absurd (isDigit_of_mem_repr (n := n) hc) (by decide)
  | negSucc n =>
    rw [toList_neg] at hc
    exact absurd (isDigit_of_mem_repr ((List.mem_cons.mp hc).resolve_left (by decide))) (by decide)

theorem int_toString_injective {p q : Int} (h : toString p = toString q) : p = q := by
  have hminus (m n : Nat) (h : toString (Int.ofNat m) = toString (Int.negSucc n)) : False := by
    have hmem : '-' ∈ m.repr.toList := by
      change '-' ∈ (toString (Int.ofNat m)).toList
      rw [h, toList_neg]
      exact List.mem_cons_self
    exact absurd (isDigit_of_mem_repr hmem) (by decide)
  cases p with
  | ofNat m =>
    cases q with
    | ofNat n => exact congrArg Int.ofNat (nat_repr_injective h)
    | negSucc n => exact (hminus m n h).elim
  | negSucc m =>
    cases q with
    | ofNat n => exact (hminus n m h.symm).elim
    | negSucc n =>
      have hlist := congrArg String.toList h
      rw [toList_neg, toList_neg] at hlist
      have hrepr := String.toList_injective (List.cons.inj hlist).2
      rw [Nat.succ.inj (nat_repr_injective hrepr)]

end Text

theorem toList_redisKey (f : Family) (home : TopicPartition) : (redisKey f home).toList =
    (f.name.toList ++ ':' :: home.1.toList) ++ ':' :: (toString home.2).toList := by
  simp only [redisKey, String.toList_append, List.append_assoc]
  rfl

theorem redisKey_inj {f f' : Family} {home home' : TopicPartition}
    (h : redisKey f home = redisKey f' home') : f = f' ∧ home = home' := by
  obtain ⟨topic, p⟩ := home
  obtain ⟨topic', p'⟩ := home'
  have hlist := congrArg String.toList h
  rw [toList_redisKey, toList_redisKey] at hlist
  obtain ⟨hhead, htail⟩ := split_last (colon_not_mem_toString p) (colon_not_mem_toString p') hlist
  have hp : p = p' := int_toString_injective (String.toList_injective htail)
  have htopic : f = f' ∧ topic = topic' := by
    cases f <;> cases f' <;> simp [Family.name] at hhead ⊢
    all_goals exact String.toList_injective hhead
  exact ⟨htopic.1, by rw [htopic.2, hp]⟩

theorem not_inflight_redisKey (f : Family) (home : TopicPartition) :
    ¬ "inflight:".toList <+: (redisKey f home).toList := by
  intro h
  rw [toList_redisKey] at h
  obtain ⟨rest, hrest⟩ := h
  cases f <;> simp [Family.name] at hrest

inductive Value (Node Payload : Type) where
  | list (messages : List (Message Node Payload))
  | number (n : Nat)

/-- The keys that exist, with their values. A list that has become empty is no more. -/
abbrev Keyspace (Node Payload : Type) := String → Option (Value Node Payload)

inductive Command (Node Payload : Type) where
  | rpush (key : String) (msg : Message Node Payload)
  | lpush (key : String) (msg : Message Node Payload)
  | lpop (key : String)
  | incr (key : String)
  | set (key : String) (n : Nat)

/-- What a command is answered: `lpush` and `rpush` the length, `incr` the number, `lpop` the
message, if there is one. -/
inductive Response (Node Payload : Type) where
  | number (n : Nat)
  | message (msg : Option (Message Node Payload))
  | ok

namespace Keyspace
variable {Node Payload : Type}

def bind (k : Keyspace Node Payload) (key : String) (value : Option (Value Node Payload)) :
    Keyspace Node Payload :=
  fun j => if j = key then value else k j

/-- The list of a key, which is empty if the key does not exist; `none` stands for `WRONGTYPE`. -/
def list? (k : Keyspace Node Payload) (key : String) : Option (List (Message Node Payload)) :=
  match k key with
  | none => some []
  | some (.list messages) => some messages
  | some (.number _) => none

def number? (k : Keyspace Node Payload) (key : String) : Option Nat :=
  match k key with
  | none => some 0
  | some (.number n) => some n
  | some (.list _) => none

/-- The value of a list: a key does not keep an empty one. -/
def ofList : List (Message Node Payload) → Option (Value Node Payload)
  | [] => none
  | m :: ms => some (.list (m :: ms))

/-- A command, `none` if it fails with `WRONGTYPE`. -/
def exec (k : Keyspace Node Payload) :
    Command Node Payload → Option (Keyspace Node Payload × Response Node Payload)
  | .rpush key msg => (k.list? key).map fun ms =>
    (k.bind key (ofList (ms ++ [msg])), .number (ms.length + 1))
  | .lpush key msg => (k.list? key).map fun ms =>
    (k.bind key (ofList (msg :: ms)), .number (ms.length + 1))
  | .lpop key => (k.list? key).map fun ms => (k.bind key (ofList ms.tail), .message ms.head?)
  | .incr key => (k.number? key).map fun n => (k.bind key (some (.number (n + 1))), .number (n + 1))
  | .set key n => some (k.bind key (some (.number n)), .ok)

def execAll (k : Keyspace Node Payload) : List (Command Node Payload) →
    Option (Keyspace Node Payload)
  | [] => some k
  | c :: cs => (k.exec c).bind fun r => r.1.execAll cs

end Keyspace

variable {Node Payload : Type} [DecidableEq Node] {cfg : Config Node Payload}

def Service.commands (cfg : Config Node Payload) (s : Service Node Payload) :
    Action Node Payload → List (Command Node Payload)
  | .resume n k =>
    match (s.nodes n).calls[k]? with
    | some (.rpush msg) => [.rpush (queueKey msg.home) msg]
    | some (.incr msg) => [.incr (offsetKey msg.home)]
    | some (.execute pipe) => pipe.map fun msg => .rpush (queueKey msg.home) msg
    | some (.lpop topic p _ _ _) => [.lpop (queueKey (topic, p))]
    | some (.set msg) => [.set (committedOffsetKey msg.home) msg.offset]
    | some (.requeue msg _) =>
      if msg.retryCount ≥ cfg.maxRetries then [.rpush (dlqKey msg.home) msg]
      else [.lpush (queueKey msg.home) msg]
    | none => []
  | _ => []

def storedQueue (cfg : Config Node Payload) :
    System (Service Node Payload × Keyspace Node Payload) (Action Node Payload) :=
  (queue cfg).watched id (fun _ => none) fun s k a => k.execAll (s.commands cfg a)

def Redis.value (r : Redis Node Payload) : Family → TopicPartition → Option (Value Node Payload)
  | .queue, home => Keyspace.ofList (r.queue home)
  | .dlq, home => Keyspace.ofList (r.dlq home)
  | .offset, home => if r.offset home = 0 then none else some (.number (r.offset home))
  | .committed, home => (r.committed home).map .number

/-- The lists and counters are where their keys say, and nothing else is stored. -/
structure Keyspace.Shows (k : Keyspace Node Payload) (r : Redis Node Payload) : Prop where
  value : ∀ f home, k (redisKey f home) = r.value f home
  only : ∀ key, k key ≠ none → ∃ f home, key = redisKey f home

section Shows
variable {k : Keyspace Node Payload} {r : Redis Node Payload}
omit [DecidableEq Node]

@[simp] theorem Keyspace.getD_ofList (ms : List (Message Node Payload)) :
    (match Keyspace.ofList ms with
      | none => some []
      | some (.list messages) => some messages
      | some (.number _) => none) = some ms := by
  cases ms <;> rfl

theorem Keyspace.Shows.list? (h : k.Shows r) (home : TopicPartition) :
    k.list? (queueKey home) = some (r.queue home) ∧ k.list? (dlqKey home) = some (r.dlq home) := by
  unfold Keyspace.list? queueKey dlqKey
  rw [h.value, h.value]
  exact ⟨getD_ofList _, getD_ofList _⟩

theorem Keyspace.Shows.number? (h : k.Shows r) (home : TopicPartition) :
    k.number? (offsetKey home) = some (r.offset home) := by
  unfold Keyspace.number? offsetKey
  rw [h.value, Redis.value]
  by_cases hzero : r.offset home = 0
  · rw [if_pos hzero, hzero]
  · rw [if_neg hzero]

theorem Keyspace.Shows.bind (h : k.Shows r) {r' : Redis Node Payload} (f : Family)
    (home : TopicPartition) (v : Option (Value Node Payload))
    (hv : ∀ f' home', r'.value f' home' = if f' = f ∧ home' = home then v else r.value f' home') :
    (k.bind (redisKey f home) v).Shows r' where
  value f' home' := by
    rw [hv, Keyspace.bind]
    by_cases hkey : f' = f ∧ home' = home
    · rw [if_pos hkey, hkey.1, hkey.2, if_pos rfl]
    · rw [if_neg hkey, if_neg fun he => hkey (redisKey_inj he), h.value]
  only key hne := by
    unfold Keyspace.bind at hne
    split at hne
    · exact ⟨f, home, ‹_›⟩
    · exact h.only key hne

section Exec
variable (h : k.Shows r) (m : Message Node Payload) (home : TopicPartition)
include h

theorem Keyspace.Shows.rpush : ∃ k' n,
    k.exec (.rpush (queueKey m.home) m) = some (k', .number n) ∧ k'.Shows (r.rpush m) := by
  refine ⟨_, _, by rw [Keyspace.exec, (h.list? m.home).1]; rfl, h.bind .queue m.home _ ?_⟩
  intro f' home'
  cases f' with
  | queue =>
    simp only [Redis.value, queue_rpush, true_and]
    by_cases hm : home' = m.home
    · simp [hm]
    · simp [hm, Ne.symm hm]
  | _ =>
    rw [if_neg (by simp)]
    rfl

theorem Keyspace.Shows.lpush : ∃ k' n,
    k.exec (.lpush (queueKey m.home) m) = some (k', .number n) ∧ k'.Shows (r.lpush m) := by
  refine ⟨_, _, by rw [Keyspace.exec, (h.list? m.home).1]; rfl, h.bind .queue m.home _ ?_⟩
  intro f' home'
  cases f' with
  | queue =>
    simp only [Redis.value, queue_lpush, true_and]
    by_cases hm : home' = m.home
    · simp [hm]
    · simp [hm, Ne.symm hm]
  | _ =>
    rw [if_neg (by simp)]
    rfl

theorem Keyspace.Shows.bury : ∃ k' n,
    k.exec (.rpush (dlqKey m.home) m) = some (k', .number n) ∧ k'.Shows (r.bury m) := by
  refine ⟨_, _, by rw [Keyspace.exec, (h.list? m.home).2]; rfl, h.bind .dlq m.home _ ?_⟩
  intro f' home'
  cases f' with
  | dlq =>
    simp only [Redis.value, dlq_bury, true_and]
    by_cases hm : home' = m.home
    · simp [hm]
    · simp [hm, Ne.symm hm]
  | _ =>
    rw [if_neg (by simp)]
    rfl

theorem Keyspace.Shows.lpop : ∃ k',
    k.exec (.lpop (queueKey home)) = some (k', .message (r.queue home).head?) ∧
      k'.Shows (r.pop home) := by
  refine ⟨_, by rw [Keyspace.exec, (h.list? home).1]; rfl, h.bind .queue home _ ?_⟩
  intro f' home'
  cases f' with
  | queue =>
    simp only [Redis.value, queue_pop, true_and]
    by_cases hm : home' = home <;> simp [hm]
  | _ =>
    rw [if_neg (by simp)]
    rfl

theorem Keyspace.Shows.incr : ∃ k',
    k.exec (.incr (offsetKey home)) = some (k', .number (r.offset home + 1)) ∧
      k'.Shows (r.incr home) := by
  refine ⟨_, by rw [Keyspace.exec, h.number? home]; rfl, h.bind .offset home _ ?_⟩
  intro f' home'
  cases f' with
  | offset =>
    simp only [Redis.value, Redis.incr, true_and]
    by_cases hm : home' = home
    · subst hm
      simp
    · simp [hm]
  | _ =>
    rw [if_neg (by simp)]
    rfl

theorem Keyspace.Shows.set : ∃ k',
    k.exec (.set (committedOffsetKey m.home) m.offset) = some (k', .ok) ∧
      k'.Shows (r.commit m) := by
  refine ⟨_, rfl, h.bind .committed m.home _ ?_⟩
  intro f' home'
  cases f' with
  | committed =>
    simp only [Redis.value, Redis.commit, true_and]
    by_cases hm : home' = m.home
    · subst hm
      simp
    · simp [hm]
  | _ =>
    rw [if_neg (by simp)]
    rfl

theorem Keyspace.Shows.execute (ms : List (Message Node Payload)) : ∃ k',
    k.execAll (ms.map fun msg => .rpush (queueKey msg.home) msg) = some k' ∧
      k'.Shows (ms.foldl Redis.rpush r) := by
  induction ms generalizing k r with
  | nil => exact ⟨k, rfl, h⟩
  | cons m ms ih =>
    obtain ⟨k', n, hk', h'⟩ := h.rpush m
    obtain ⟨k'', hk'', h''⟩ := ih h'
    exact ⟨k'', by rw [List.map_cons, Keyspace.execAll, hk']; exact hk'', h''⟩

end Exec

theorem Keyspace.Shows.of_exec {c : Command Node Payload} {k' : Keyspace Node Payload}
    {r' : Redis Node Payload} {response : Response Node Payload}
    (he : k.exec c = some (k', response)) (h : k'.Shows r') :
    ∃ k', k.execAll [c] = some k' ∧ k'.Shows r' :=
  ⟨k', by rw [Keyspace.execAll, he]; rfl, h⟩

end Shows

/-- The commands of a step succeed, and leave what the step leaves. -/
theorem Keyspace.Shows.step {s t : Service Node Payload} {k : Keyspace Node Payload}
    (h : k.Shows s.redis) {a : Action Node Payload} (hs : (queue cfg).step s a = some t) :
    ∃ k', k.execAll (s.commands cfg a) = some k' ∧ k'.Shows t.redis := by
  have hquiet (he : s.commands cfg a = []) (hr : t.redis = s.redis) :
      ∃ k', k.execAll (s.commands cfg a) = some k' ∧ k'.Shows t.redis :=
    ⟨k, by rw [he]; rfl, hr ▸ h⟩
  cases step_cases hs with
  | rpush n j msg hcall =>
    obtain ⟨k', _, he, h'⟩ := h.rpush msg
    simp only [Service.commands, hcall]
    exact Keyspace.Shows.of_exec he h'
  | incr n j msg hcall =>
    obtain ⟨k', he, h'⟩ := h.incr msg.home
    simp only [Service.commands, hcall]
    exact Keyspace.Shows.of_exec he h'
  | execute n j pipe hcall =>
    simp only [Service.commands, hcall]
    exact h.execute pipe
  | lpopEmpty n j topic p rest batchSize messages hcall =>
    obtain ⟨k', he, h'⟩ := h.lpop (topic, p)
    simp only [Service.commands, hcall]
    cases hq : s.redis.queue (topic, p) with
    | nil =>
      have hsame : s.redis.pop (topic, p) = s.redis := by
        rw [Redis.pop, hq, List.tail_nil, ← hq, Function.update_eq_self]
      exact Keyspace.Shows.of_exec he (hsame ▸ h')
    | cons raw tail =>
      have ht : s.resume cfg n j = some _ := hs
      simp only [Service.resume, hcall, hq, Option.map_some] at ht
      rw [← Option.some.inj ht]
      exact Keyspace.Shows.of_exec he h'
  | lpop n j topic p rest batchSize messages raw hcall hq r hr =>
    obtain ⟨k', he, h'⟩ := h.lpop (topic, p)
    simp only [Service.commands, hcall]
    exact Keyspace.Shows.of_exec he h'
  | set n j msg hcall =>
    obtain ⟨k', he, h'⟩ := h.set msg
    simp only [Service.commands, hcall]
    exact Keyspace.Shows.of_exec he h'
  | bury n j msg timedOut hcall hmax =>
    obtain ⟨k', _, he, h'⟩ := h.bury msg
    simp only [Service.commands, hcall, ge_iff_le, if_pos hmax]
    exact Keyspace.Shows.of_exec he h'
  | requeue n j msg timedOut hcall hmax =>
    obtain ⟨k', _, he, h'⟩ := h.lpush msg
    simp only [Service.commands, hcall, ge_iff_le, if_neg (not_le.mpr hmax)]
    exact Keyspace.Shows.of_exec he h'
  | _ => exact hquiet rfl rfl

omit [DecidableEq Node] in
theorem Keyspace.Shows.init :
    Keyspace.Shows (fun _ => none) ({} : Redis Node Payload) where
  value f home := by cases f <;> rfl
  only _ hne := absurd rfl hne

theorem shows_reach {p : Service Node Payload × Keyspace Node Payload}
    (h : (storedQueue cfg).Reachable p) : p.2.Shows p.1.redis := by
  refine h.invariant (I := fun p => p.2.Shows p.1.redis) .init fun p a q _ hp _ hs => ?_
  obtain ⟨hstep, hexec⟩ := System.watched_step.mp hs
  obtain ⟨k', hk', hshows⟩ := hp.step hstep
  cases hk'.symm.trans hexec
  exact hshows

/-- No command ever fails on the one space of keys that Redis has, whatever the topics are called;
the keys hold exactly what the lists and counters of each topic and partition hold, and none is
one that `recover_in_flight` looks for. -/
theorem never_wrongType {p : Service Node Payload × Keyspace Node Payload}
    (h : (storedQueue cfg).Reachable p) :
    (∀ a t, (queue cfg).step p.1 a = some t → ∃ k, (storedQueue cfg).step p a = some (t, k)) ∧
      (∀ f home, p.2 (redisKey f home) = p.1.redis.value f home) ∧
      ∀ key, "inflight:".toList <+: key.toList → p.2 key = none := by
  have hshows := shows_reach h
  refine ⟨fun a t hs => ?_, hshows.value, fun key hkey => ?_⟩
  · obtain ⟨k, hexec, -⟩ := hshows.step hs
    exact ⟨k, System.watched_step.mpr ⟨hs, hexec⟩⟩
  · by_contra hne
    obtain ⟨f, home, rfl⟩ := hshows.only key hne
    exact not_inflight_redisKey f home hkey

/-- Two topics whose names look like keys. -/
def lookalikes : List (Action Nat Nat) :=
  [.produce 0 "a:1" 7 none [] "m" 0, .resume 0 0, .resume 0 0,
   .produce 0 "a" 8 none [] "m'" 0, .resume 0 0, .resume 0 0,
   .consume 0 "a:1" "group" "c" (some [0]) 1, .resume 0 0, .negativeAcknowledge 0 "m", .resume 0 0]

theorem never_wrongType_lookalikes : ∃ p,
    (storedQueue plain).run (storedQueue plain).init lookalikes = some p ∧
      (p.1.redis.queue ("a:1", 0)).map Message.messageId = ["m"] ∧
      (∀ a t, (queue plain).step p.1 a = some t → ∃ k, (storedQueue plain).step p a = some (t, k)) ∧
      (∀ f home, p.2 (redisKey f home) = p.1.redis.value f home) ∧
      ∀ key, "inflight:".toList <+: key.toList → p.2 key = none := by
  have hrun : ((storedQueue plain).run (storedQueue plain).init lookalikes).any (fun p =>
      (p.1.redis.queue ("a:1", 0)).map Message.messageId = ["m"]) = true := by
    decide +kernel
  obtain ⟨p, hp, hlist⟩ := (Option.any_eq_true ..).mp hrun
  exact ⟨p, hp, of_decide_eq_true hlist, never_wrongType (System.reachable_run hp)⟩

end DistSync.Queue

import DistSync.Queue.Ledger

/-! `produce_batch` against `produce` of one payload after the other. The lists of the partitions
come out the same; the batch counts no offsets and refuses no message. -/
namespace DistSync.Queue
variable {Node Payload : Type} [DecidableEq Node] (cfg : Config Node Payload)
  (s : Service Node Payload) (n : Node) (topic : String)

def Config.Fits (m : Message Node Payload) : Prop := cfg.size m ≤ cfg.maxMessageSize

instance (m : Message Node Payload) : Decidable (cfg.Fits m) := inferInstanceAs (Decidable (_ ≤ _))

def Config.single (item : BatchItem Payload) : Message Node Payload :=
  cfg.message n topic item.payload item.key [] item.messageId item.timestamp

/-- One `produce` with nothing in between, its `rpush` and its `incr` included; it ends at once if
it refuses the message. `k` calls were suspended before. -/
def produceAlone (k : Nat) (item : BatchItem Payload) : List (Action Node Payload) :=
  .produce n topic item.payload item.key [] item.messageId item.timestamp ::
    if cfg.Fits (cfg.single n topic item) then [.resume n k, .resume n k] else []

def produceInTurn (k : Nat) (items : List (BatchItem Payload)) : List (Action Node Payload) :=
  items.flatMap (produceAlone cfg n topic k)

/-- One `produce_batch` with nothing in between, its `execute` included. -/
def batchAlone (k : Nat) (items : List (BatchItem Payload)) : List (Action Node Payload) :=
  [.produceBatch n topic items, .resume n k]

def Service.Unused (items : List (BatchItem Payload)) : Prop :=
  (items.map BatchItem.messageId).Nodup ∧ ∀ item ∈ items, item.messageId ∉ createdIds s.history

/-- What a message says apart from its identity, its time and its offset. -/
def Message.body (m : Message Node Payload) : Message Node Payload :=
  { m with messageId := "", timestamp := 0, offset := 0 }

def Redis.Agrees (r r' : Redis Node Payload) : Prop :=
  ∀ home, (r.queue home).map Message.body = (r'.queue home).map Message.body ∧
    r.offset home = r'.offset home

/-- `produce_batch` of `items` does what `produce` of one after the other does, and refuses them
if one of the messages is too large. A call that is refused is not suspended. -/
structure BatchMatches (items inTurn : List (BatchItem Payload)) : Prop where
  same : (∀ m ∈ cfg.batch n topic items, cfg.Fits m) → ∀ t u,
    (queue cfg).run s (batchAlone n topic (s.nodes n).calls.length items) = some t →
    (queue cfg).run s (produceInTurn cfg n topic (s.nodes n).calls.length inTurn) = some u →
      t.redis.Agrees u.redis
  refuses : (∃ m ∈ cfg.batch n topic items, ¬ cfg.Fits m) → ∀ t,
    (queue cfg).step s (.produceBatch n topic items) = some t →
      (t.nodes n).calls = (s.nodes n).calls

def Redis.produced (r : Redis Node Payload) (ms : List (Message Node Payload)) :
    Redis Node Payload :=
  ms.foldl (fun r m => (r.rpush m).incr m.home) r

section Alone
variable {cfg s n topic} {x : QueueNode Node Payload} (msg : Message Node Payload)

omit [DecidableEq Node] in
theorem calls_suspend (c : Call Node Payload) : (x.suspend c).calls[x.calls.length]? = some c := by
  rw [QueueNode.suspend, List.getElem?_concat_length]

omit [DecidableEq Node] in
theorem wake_suspend (c : Call Node Payload) : (x.suspend c).wake x.calls.length = x := by
  simp [QueueNode.wake, QueueNode.suspend, List.eraseIdx_append_of_length_le]

theorem step_produce {item : BatchItem Payload} (hid : item.messageId ∉ createdIds s.history) :
    (queue cfg).step s (.produce n topic item.payload item.key [] item.messageId item.timestamp) =
      some (s.move n ((s.nodes n).produce cfg (cfg.single n topic item)) s.redis
        [.created item.messageId]) :=
  if_neg hid

variable (cfg) in
theorem step_rpush (h : s.nodes n = x.suspend (.rpush msg)) :
    (queue cfg).step s (.resume n x.calls.length) =
      some (s.move n (x.suspend (.incr msg)) (s.redis.rpush msg) [.produced msg]) := by
  simp only [queue, Service.step, Service.resume, h, calls_suspend, Option.map_some, wake_suspend]

variable (cfg) in
theorem step_incr (h : s.nodes n = x.suspend (.incr msg)) :
    (queue cfg).step s (.resume n x.calls.length) =
      some (s.move n x (s.redis.incr msg.home)
        [.counted msg.messageId (s.redis.offset msg.home + 1)]) := by
  simp only [queue, Service.step, Service.resume, h, calls_suspend, Option.map_some, wake_suspend]

variable (cfg) in
theorem step_execute {pipe : List (Message Node Payload)}
    (h : s.nodes n = x.suspend (.execute pipe)) :
    (queue cfg).step s (.resume n x.calls.length) =
      some (s.move n x (pipe.foldl Redis.rpush s.redis) (pipe.reverse.map .batched)) := by
  simp only [queue, Service.step, Service.resume, h, calls_suspend, Option.map_some, wake_suspend]

variable (cfg n topic) in
theorem run_produceAlone {item : BatchItem Payload}
    (hid : item.messageId ∉ createdIds s.history) :
    ∃ t, (queue cfg).run s (produceAlone cfg n topic (s.nodes n).calls.length item) = some t ∧
      t.redis = s.redis.produced ([cfg.single n topic item].filter cfg.Fits) ∧
      (t.nodes n).calls = (s.nodes n).calls ∧
      createdIds t.history = item.messageId :: createdIds s.history := by
  unfold produceAlone
  by_cases hfits : cfg.Fits (cfg.single n topic item)
  · have hnode : (s.nodes n).produce cfg (cfg.single n topic item) =
        (s.nodes n).suspend (.rpush (cfg.single n topic item)) := if_neg (not_lt.mpr hfits)
    rw [if_pos hfits, System.run, step_produce hid, hnode, Option.bind_some, System.run,
      step_rpush cfg _ (move_self ..), Option.bind_some, System.run, step_incr cfg _ (move_self ..),
      Option.bind_some, System.run]
    have hone : [cfg.single n topic item].filter cfg.Fits = [cfg.single n topic item] := by
      simp [hfits]
    refine ⟨_, rfl, ?_, by rw [move_self], rfl⟩
    rw [hone]
    rfl
  · have hnode : (s.nodes n).produce cfg (cfg.single n topic item) = s.nodes n :=
      if_pos (not_le.mp hfits)
    rw [if_neg hfits, System.run, step_produce hid, hnode, Option.bind_some, System.run]
    have hnone : [cfg.single n topic item].filter cfg.Fits = [] := by
      simp [hfits]
    refine ⟨_, rfl, ?_, by rw [move_self], rfl⟩
    rw [hnone]
    rfl

variable (cfg n topic) in
theorem run_produceInTurn {items : List (BatchItem Payload)} (h : s.Unused items) :
    ∃ t, (queue cfg).run s (produceInTurn cfg n topic (s.nodes n).calls.length items) = some t ∧
      t.redis = s.redis.produced ((items.map (cfg.single n topic)).filter cfg.Fits) := by
  induction items generalizing s with
  | nil => exact ⟨s, rfl, rfl⟩
  | cons item items ih =>
    obtain ⟨hnodup, hfresh⟩ := h
    rw [List.map_cons, List.nodup_cons] at hnodup
    obtain ⟨t, ht, hredis, hcalls, hids⟩ :=
      run_produceAlone cfg n topic (hfresh item List.mem_cons_self)
    have hunused : t.Unused items := by
      refine ⟨hnodup.2, fun item' hitem' hmem => ?_⟩
      rw [hids] at hmem
      cases List.mem_cons.mp hmem with
      | inl he => exact hnodup.1 (List.mem_map.mpr ⟨item', hitem', he⟩)
      | inr hold => exact hfresh item' (List.mem_cons_of_mem _ hitem') hold
    obtain ⟨u, hu, hredis'⟩ := ih hunused
    refine ⟨u, ?_, ?_⟩
    · rw [produceInTurn, List.flatMap_cons, System.run_append, ht, Option.bind_some]
      rwa [hcalls] at hu
    · rw [hredis', hredis, Redis.produced, Redis.produced, Redis.produced, ← List.foldl_append,
        ← List.filter_append]
      rfl

omit [DecidableEq Node] in
theorem map_batch {β : Type} {items : List (BatchItem Payload)} {f : Message Node Payload → β}
    {g : BatchItem Payload → β} (h : ∀ i : Nat, ∀ item ∈ items, f
      { messageId := item.messageId
        topic := topic
        payload := item.payload
        producerId := n
        timestamp := item.timestamp
        partition := cfg.getPartition topic (keyOr item.key (toString i)) } = g item) :
    (cfg.batch n topic items).map f = items.map g := by
  rw [Config.batch, List.mapIdx_eq_zipIdx_map, List.map_map]
  calc
    items.zipIdx.map _ = items.zipIdx.map (g ∘ Prod.fst) :=
      List.map_congr_left fun p hp => h p.2 p.1 (List.fst_mem_of_mem_zipIdx hp)
    _ = items.map g := by rw [← List.map_map, List.zipIdx_map_fst]

omit [DecidableEq Node] in
variable (cfg n topic) in
theorem ids_batch (items : List (BatchItem Payload)) :
    (cfg.batch n topic items).map Message.messageId = items.map BatchItem.messageId :=
  map_batch fun _ _ _ => rfl

variable (cfg n topic) in
theorem run_batchAlone {items : List (BatchItem Payload)} (h : s.Unused items) :
    ∃ t u, (queue cfg).step s (.produceBatch n topic items) = some t ∧
      (t.nodes n).calls = (s.nodes n).calls ++ [.execute (pipeline (cfg.batch n topic items))] ∧
      (queue cfg).run s (batchAlone n topic (s.nodes n).calls.length items) = some u ∧
      u.redis = (pipeline (cfg.batch n topic items)).foldl Redis.rpush s.redis := by
  have hids : ((cfg.batch n topic items).map Message.messageId).Nodup ∧
      ∀ m ∈ cfg.batch n topic items, m.messageId ∉ createdIds s.history := by
    rw [ids_batch]
    refine ⟨h.1, fun m hm => ?_⟩
    have hmem := List.mem_map_of_mem (f := Message.messageId) hm
    rw [ids_batch] at hmem
    obtain ⟨item, hitem, he⟩ := List.mem_map.mp hmem
    rw [← he]
    exact h.2 item hitem
  have hstep : (queue cfg).step s (.produceBatch n topic items) = some (s.move n
      ((s.nodes n).suspend (.execute (pipeline (cfg.batch n topic items)))) s.redis
        ((cfg.batch n topic items).map fun m => .created m.messageId)) :=
    if_pos hids
  have hexecute := step_execute cfg (move_self s n
    ((s.nodes n).suspend (.execute (pipeline (cfg.batch n topic items)))) s.redis
      ((cfg.batch n topic items).map fun m => .created m.messageId))
  refine ⟨_, ?done, hstep, congrArg _ (move_self ..), ?run, ?redis⟩
  case run =>
    rw [batchAlone, System.run, hstep, Option.bind_some, System.run, hexecute, Option.bind_some,
      System.run]
  case redis => rfl

end Alone

section Effects
variable (r : Redis Node Payload) (ms : List (Message Node Payload)) (home : TopicPartition)
omit [DecidableEq Node]

theorem queue_incr (tp : TopicPartition) : (r.incr tp).queue = r.queue := rfl

theorem queue_produced :
    (r.produced ms).queue home = r.queue home ++ ms.filter fun m => m.home = home := by
  induction ms generalizing r with
  | nil => simp [Redis.produced]
  | cons m ms ih =>
    rw [Redis.produced, List.foldl_cons, ← Redis.produced, ih, queue_incr, queue_rpush]
    by_cases hm : m.home = home <;> simp [hm]

theorem offset_produced :
    (r.produced ms).offset home = r.offset home + (ms.filter fun m => m.home = home).length := by
  induction ms generalizing r with
  | nil => simp [Redis.produced]
  | cons m ms ih =>
    rw [Redis.produced, List.foldl_cons, ← Redis.produced, ih]
    by_cases hm : m.home = home
    · subst hm
      simp [Redis.incr, Redis.rpush]
      omega
    · simp [Redis.incr, Redis.rpush, Function.update_of_ne (Ne.symm hm), hm]

theorem offset_foldl_rpush : (ms.foldl Redis.rpush r).offset = r.offset := by
  induction ms generalizing r with
  | nil => rfl
  | cons m ms ih => exact ih (r.rpush m)

end Effects

omit [DecidableEq Node] in
theorem get?_foldl_file (ms : List (Message Node Payload)) (p : Int)
    (d : Dict Int (List (Message Node Payload))) :
    ((ms.foldl (fun d m => d.set m.partition ((d.get? m.partition).getD [] ++ [m])) d).get? p).getD
      [] = (d.get? p).getD [] ++ ms.filter fun m => m.partition = p := by
  induction ms generalizing d with
  | nil => simp
  | cons m ms ih =>
    rw [List.foldl_cons, ih, Dict.get?_set]
    by_cases hm : m.partition = p
    · simp [hm]
    · simp [hm]

omit [DecidableEq Node] in
theorem partition_of_file (ms : List (Message Node Payload))
    (d : Dict Int (List (Message Node Payload)))
    (hd : ∀ e ∈ d.entries, ∀ m ∈ e.2, m.partition = e.1) : ∀ e ∈ (ms.foldl (fun d m =>
      d.set m.partition ((d.get? m.partition).getD [] ++ [m])) d).entries,
        ∀ m ∈ e.2, m.partition = e.1 := by
  induction ms generalizing d with
  | nil => exact hd
  | cons m ms ih =>
    refine ih _ fun e he m' hm' => ?_
    have hget := Dict.get?_eq_some.mpr he
    rw [Dict.get?_set] at hget
    split at hget
    · rename_i hp
      rw [← Option.some.inj hget] at hm'
      cases List.mem_append.mp hm' with
      | inl hold =>
        cases hf : d.get? m.partition with
        | none =>
          rw [hf] at hold
          cases hold
        | some l =>
          rw [hf] at hold
          exact (hd _ (Dict.get?_eq_some.mp hf) m' hold).trans hp
      | inr hnew =>
        rw [List.mem_singleton.mp hnew]
        exact hp
    · exact hd e (Dict.get?_eq_some.mp hget) m' hm'

omit [DecidableEq Node] in
theorem filter_flatMap_files {es : List (Int × List (Message Node Payload))}
    (hn : (es.map Prod.fst).Nodup) (hes : ∀ e ∈ es, ∀ m ∈ e.2, m.partition = e.1)
    (home : TopicPartition) :
    (es.flatMap Prod.snd).filter (fun m => m.home = home) =
      ((Dict.lookup es home.2).getD []).filter fun m => m.home = home := by
  have hskip {l : List (Message Node Payload)} {p : Int} (hp : p ≠ home.2)
      (hl : ∀ m ∈ l, m.partition = p) : l.filter (fun m => m.home = home) = [] := by
    refine List.filter_eq_nil_iff.mpr fun m hm he => hp ?_
    rw [← hl m hm, ← of_decide_eq_true he]
    rfl
  induction es with
  | nil => rfl
  | cons e es ih =>
    obtain ⟨p, l⟩ := e
    obtain ⟨hnot, hn⟩ := List.nodup_cons.mp hn
    have hrest := fun e he => hes e (List.mem_cons_of_mem _ he)
    rw [List.flatMap_cons, List.filter_append, Dict.lookup]
    by_cases hp : p = home.2
    · have hnone : (es.flatMap Prod.snd).filter (fun m => m.home = home) = [] := by
        rw [ih hn hrest, Dict.lookup_eq_none.mpr (hp ▸ hnot)]
        rfl
      rw [if_pos hp, hnone, List.append_nil]
      rfl
    · rw [if_neg hp, hskip hp (hes _ List.mem_cons_self), ih hn hrest]
      rfl

omit [DecidableEq Node] in
theorem filter_pipeline (ms : List (Message Node Payload)) (home : TopicPartition) :
    (pipeline ms).filter (fun m => m.home = home) = ms.filter fun m => m.home = home := by
  have hfile := get?_foldl_file ms home.2 ∅
  rw [pipeline, filter_flatMap_files (byPartition ms).nodup
    (partition_of_file ms ∅ nofun), ← Dict.get?, byPartition, hfile]
  rw [Dict.get?_empty, Option.getD_none, List.nil_append, List.filter_filter]
  refine List.filter_congr fun m _ => ?_
  by_cases hm : m.home = home
  · subst hm
    simp [Message.home]
  · simp [hm]

def BatchItem.Alike (item item' : BatchItem Payload) : Prop :=
  item.payload = item'.payload ∧ item.key = item'.key

/-- `key_fn` yields a string that is not empty. -/
def BatchItem.Keyed (item : BatchItem Payload) : Prop := ∃ key, item.key = some key ∧ key ≠ ""

section Matches
variable {cfg s n topic} {items inTurn : List (BatchItem Payload)}

omit [DecidableEq Node] in
theorem filter_map_body (ms : List (Message Node Payload)) (home : TopicPartition) :
    (ms.filter fun m => m.home = home).map Message.body =
      (ms.map Message.body).filter fun m => m.home = home := by
  rw [List.filter_map]
  rfl

omit [DecidableEq Node] in
theorem body_eq {item : BatchItem Payload} (hkey : item.Keyed) (default : String) :
    ({ messageId := item.messageId
       topic := topic
       payload := item.payload
       producerId := n
       timestamp := item.timestamp
       partition := cfg.getPartition topic (keyOr item.key default) } :
      Message Node Payload).body = cfg.message n topic item.payload item.key [] "" 0 := by
  obtain ⟨key, hkey, hne⟩ := hkey
  simp only [Message.body, Config.message, hkey, keyOr, if_neg hne]

omit [DecidableEq Node] in
theorem body_batch (hkeys : ∀ item ∈ items, item.Keyed)
    (h : List.Forall₂ BatchItem.Alike items inTurn) :
    (cfg.batch n topic items).map Message.body =
      (inTurn.map (cfg.single n topic)).map Message.body := by
  rw [map_batch fun i item hitem => body_eq (hkeys item hitem) (toString i), List.map_map]
  induction h with
  | nil => rfl
  | @cons item item' items inTurn hitem _ ih =>
    have hkeyed := hkeys item List.mem_cons_self
    have hkeyed' : item'.Keyed := by
      obtain ⟨key, hkey, hne⟩ := hkeyed
      exact ⟨key, hitem.2 ▸ hkey, hne⟩
    rw [List.map_cons, List.map_cons, ih fun item hi => hkeys item (List.mem_cons_of_mem _ hi),
      hitem.1, hitem.2]
    exact congrArg (· :: _) (body_eq hkeyed' item'.messageId).symm

/-- If no message is too large, the lists of the partitions come out the same. -/
theorem lists_agree (hkeys : ∀ item ∈ items, item.Keyed)
    (h : List.Forall₂ BatchItem.Alike items inTurn) (hitems : s.Unused items)
    (hturn : s.Unused inTurn) (hfits : ∀ item ∈ inTurn, cfg.Fits (cfg.single n topic item))
    {t u : Service Node Payload}
    (ht : (queue cfg).run s (batchAlone n topic (s.nodes n).calls.length items) = some t)
    (hu : (queue cfg).run s (produceInTurn cfg n topic (s.nodes n).calls.length inTurn) = some u)
    (home : TopicPartition) :
    (t.redis.queue home).map Message.body = (u.redis.queue home).map Message.body := by
  obtain ⟨-, t', -, -, ht', hbatch⟩ := run_batchAlone cfg n topic hitems
  obtain ⟨u', hu', hproduced⟩ := run_produceInTurn cfg n topic hturn
  cases ht.symm.trans ht'
  cases hu.symm.trans hu'
  have hall : (inTurn.map (cfg.single n topic)).filter cfg.Fits =
      inTurn.map (cfg.single n topic) := by
    refine List.filter_eq_self.mpr fun m hm => ?_
    obtain ⟨item, hitem, rfl⟩ := List.mem_map.mp hm
    exact decide_eq_true (hfits item hitem)
  rw [hbatch, hproduced, hall, queue_foldl_rpush, queue_produced, filter_pipeline, List.map_append,
    List.map_append, filter_map_body, filter_map_body, body_batch hkeys h]

omit [DecidableEq Node] in
variable (cfg n topic) in
theorem batch_ne_nil (h : items ≠ []) : cfg.batch n topic items ≠ [] := by
  intro he
  have hids := ids_batch cfg n topic items
  rw [he, List.map_nil] at hids
  exact h (List.map_eq_nil_iff.mp hids.symm)

omit [DecidableEq Node] in
theorem filter_home_pos {ms : List (Message Node Payload)} {m : Message Node Payload}
    (hm : m ∈ ms) : 0 < (ms.filter fun m' => m'.home = m.home).length :=
  List.length_pos_of_mem (List.mem_filter.mpr ⟨hm, decide_eq_true rfl⟩)

/-- The batch does what the single calls do only if it is empty: it counts no offsets, and does
not refuse a message that is too large. -/
theorem batchMatches_iff (h : List.Forall₂ BatchItem.Alike items inTurn) (hitems : s.Unused items)
    (hturn : s.Unused inTurn) : BatchMatches cfg s n topic items inTurn ↔ items = [] := by
  obtain ⟨t₀, t, ht₀, hcalls, ht, hbatch⟩ := run_batchAlone cfg n topic hitems
  obtain ⟨u, hu, hproduced⟩ := run_produceInTurn cfg n topic hturn
  constructor
  · intro hm
    by_contra hne
    by_cases hfits : ∀ m ∈ cfg.batch n topic items, cfg.Fits m
    · have hagrees := hm.same hfits t u ht hu
      rw [hbatch, hproduced] at hagrees
      cases hturn' : (inTurn.map (cfg.single n topic)).filter cfg.Fits with
      | nil =>
        obtain ⟨m, hmem⟩ := List.exists_mem_of_ne_nil _ (batch_ne_nil cfg n topic hne)
        have hlist := congrArg List.length (hagrees m.home).1
        rw [hturn', queue_foldl_rpush, filter_pipeline, List.length_map, List.length_map,
          queue_produced, List.length_append, List.length_append] at hlist
        have hpos := filter_home_pos hmem
        simp only [List.filter_nil, List.length_nil] at hlist
        omega
      | cons m ms =>
        have hcount := (hagrees m.home).2
        rw [hturn', offset_foldl_rpush, offset_produced] at hcount
        have hpos := filter_home_pos (List.mem_cons_self : m ∈ m :: ms)
        omega
    · obtain ⟨m, hmem, hlarge⟩ : ∃ m ∈ cfg.batch n topic items, ¬ cfg.Fits m := by
        simpa using hfits
      have hsame := congrArg List.length (hm.refuses ⟨m, hmem, hlarge⟩ t₀ ht₀)
      rw [hcalls, List.length_append, List.length_singleton] at hsame
      omega
  · rintro rfl
    cases h
    refine ⟨fun _ t' u' ht' hu' => ?_, fun hlarge => ?_⟩
    · cases ht.symm.trans ht'
      cases hu.symm.trans hu'
      rw [hbatch, hproduced]
      exact fun home => ⟨rfl, rfl⟩
    · obtain ⟨m, hm, -⟩ := hlarge
      cases hm

end Matches

def oneItem : List (BatchItem Nat) :=
  [{ payload := 7, key := some "key", messageId := "m", timestamp := 0 }]

theorem batchMatches_empty :
    BatchMatches plain (queue (plain : Config Nat Nat)).init 0 "orders" [] [] :=
  (batchMatches_iff .nil ⟨List.nodup_nil, nofun⟩ ⟨List.nodup_nil, nofun⟩).mpr rfl

theorem not_batchMatches_oneItem :
    ¬ BatchMatches plain (queue (plain : Config Nat Nat)).init 0 "orders" oneItem oneItem := by
  intro h
  have hcount := (h.same (by decide) _ _ rfl rfl ("orders", 0)).2
  exact absurd hcount (by decide)

end DistSync.Queue

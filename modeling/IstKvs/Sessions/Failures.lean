import IstKvs.Sessions.Agreement

/-! Sessions in which allocations fail. A subscription is recorded first in the table and then
in the client's list, and the walk of a disconnection visits the client's list only. What a
failure between the two leaves in the table is not visited, and a reply may have gone out that
says something else. -/

namespace IstKvs.Sessions

open IstKvs.Store IstKvs.Systems Function

/-! ### What a request does -/

section Calls
variable {ht : HashTable} {key : CStr} {client : Client} {luck : Luck} {o : Outcome}

/-- The end of a session takes the descriptor off the lists of the client's own keys. -/
theorem terminate_spec {closed : Bool} {ht' : HashTable} {client' : Client} {goesOn : Bool}
    (hinv : SubInv ht) (h : terminate ht client closed false = .ok (ht', client', goesOn)) :
    goesOn = false ∧ SubInv ht' ∧ ∀ g j, Subscribed ht' g j ↔
      Subscribed ht g j ∧ ¬ (g = client.fdNotif ∧ j ∈ client.subscriptions) := by
  rw [terminate, if_neg (by simp), kvsDisconnect] at h
  obtain ⟨o, ho, h⟩ := ok_of_bind h
  obtain ⟨ht₁, hw, ho⟩ := ok_of_bind ho
  obtain rfl := Except.ok.inj ho
  obtain ⟨rfl, hrest⟩ := Prod.mk.inj (Except.ok.inj h)
  obtain ⟨-, rfl⟩ := Prod.mk.inj hrest
  obtain ⟨hinv', hsub, -⟩ := unsubscribeAll_spec client.subscriptions hinv hw
  exact ⟨rfl, hinv', hsub⟩

/-- A request is a subscription, an unsubscription, or it leaves table and client, or it ends the
session. -/
theorem manageRequest_cases {request : Request} {closed : Bool}
    {r : HashTable × Client × Bool}
    (h : manageRequest ht client request luck closed false = .ok r) :
    r = (ht, client, true) ∨ terminate ht client closed false = .ok r ∨
      (∃ key o, request = .subscribe key ∧ kvsSubscribe ht key client luck = .ok o ∧
        (r = (o.ht, o.client, true) ∨ terminate o.ht o.client closed false = .ok r)) ∨
      ∃ key o, request = .unsubscribe key ∧ kvsUnsubscribe ht key client luck = .ok o ∧
        r = (o.ht, o.client, true) := by
  cases request with
  | connect => exact .inl (Except.ok.inj h).symm
  | disconnect | noKey | unknown | closed => exact .inr (.inl h)
  | subscribe key =>
    right; right; left
    obtain ⟨o, ho, h⟩ := ok_of_bind h
    refine ⟨key, o, rfl, ho, ?_⟩
    split_ifs at h with hstatus
    · exact .inr h
    · exact .inl (Except.ok.inj h).symm
  | unsubscribe key =>
    right; right; right
    obtain ⟨o, ho, h⟩ := ok_of_bind h
    exact ⟨key, o, rfl, ho, (Except.ok.inj h).symm⟩

end Calls

/-! ### Sessions -/

variable {γ : Type*} [DecidableEq γ]

inductive Event (γ : Type*)
  | connect (c : γ) (client : Client)
  | request (c : γ) (request : Request) (luck : Luck) (closed : Bool)
  | writePair (key value : CStr) (mem : WriteMem)
  | deletePair (key : CStr)

/-- A request is served by `manage_request`, which disconnects the client when it fails. -/
inductive Serves (s : State γ) : Event γ → State γ → Prop
  | connect {c : γ} {client : Client} (hc : s.clients c = none) (hl : client.subscriptions = [])
      (hfd : ∀ d r, s.clients d = some r → r.fdNotif ≠ client.fdNotif) :
      Serves s (.connect c client) { s with clients := update s.clients c (some client) }
  | request {c : γ} {client client' : Client} {request : Request} {luck : Luck} {closed : Bool}
      {ht : HashTable} {goesOn : Bool} (hc : s.clients c = some client)
      (h : manageRequest s.ht client request luck closed false = .ok (ht, client', goesOn)) :
      Serves s (.request c request luck closed)
        ⟨ht, update s.clients c (if goesOn then some client' else none)⟩
  | writePair {key value : CStr} {mem : WriteMem} {ht : HashTable} {status : ℤ}
      {sent : List Message} (h : writePair s.ht key value mem = .ok (ht, status, sent)) :
      Serves s (.writePair key value mem) { s with ht := ht }
  | deletePair {key : CStr} {ht : HashTable} {status : ℤ} {sent : List Message}
      (h : deletePair s.ht key = .ok (ht, status, sent)) :
      Serves s (.deletePair key) { s with ht := ht }

/-- A write of a pair adds no subscription. -/
theorem fewer_writePair {ht ht' : HashTable} (hinv : SubInv ht) {key value : CStr}
    {mem : WriteMem} {status : ℤ} {sent : List Message}
    (h : writePair ht key value mem = .ok (ht', status, sent)) :
    SubInv ht' ∧ ∀ fd k, Subscribed ht' fd k → Subscribed ht fd k := by
  obtain ⟨b, hb⟩ := bucketOf_of_writePair h
  rw [writePair_eq hb] at h
  obtain ⟨rfl, -⟩ := Prod.mk.inj (Except.ok.inj h)
  have he := effect_writeChain hinv hb value mem
  exact ⟨he.inv, he.fewer fun _ hs => hs⟩

theorem fewer_deletePair {ht ht' : HashTable} (hinv : SubInv ht) {key : CStr} {status : ℤ}
    {sent : List Message} (h : deletePair ht key = .ok (ht', status, sent)) :
    SubInv ht' ∧ ∀ fd k, Subscribed ht' fd k → Subscribed ht fd k := by
  obtain ⟨b, hb⟩ := bucketOf_of_deletePair h
  rw [deletePair_eq hb] at h
  obtain ⟨rfl, -⟩ := Prod.mk.inj (Except.ok.inj h)
  have he := effect_deleteChain hinv hb
  exact ⟨he.inv, he.fewer fun _ hs => hs.elim⟩

/-! ### Replies -/

/-- No list has a descriptor twice, and nobody is on the list of a key that is refused. -/
structure Sound (ht : HashTable) : Prop where
  inv : SubInv ht
  accepted : ∀ fd key, Subscribed ht fd key → refused key = false

/-- Subscriptions are only taken away. -/
theorem Sound.fewer {ht ht' : HashTable} (h : Sound ht) (hinv : SubInv ht')
    (hsub : ∀ fd key, Subscribed ht' fd key → Subscribed ht fd key) : Sound ht' :=
  ⟨hinv, fun fd key hk => h.accepted fd key (hsub fd key hk)⟩

section Replies
variable {ht ht' : HashTable} {key : CStr} {client client' : Client} {luck : Luck} {o : Outcome}

theorem Sound.subscribe (h : Sound ht) (hk : kvsSubscribe ht key client luck = .ok o) :
    Sound o.ht := by
  obtain ⟨-, rfl⟩ | hspec := kvsSubscribe_cases h.inv hk
  · exact h
  · refine ⟨hspec.effect.inv, fun fd j hj => ?_⟩
    rw [hspec.effect.subscribed_iff] at hj
    split_ifs at hj with he
    · exact he ▸ hspec.accepted
    · exact h.accepted fd j hj

theorem Sound.unsubscribe (h : Sound ht) (hk : kvsUnsubscribe ht key client luck = .ok o) :
    Sound o.ht := by
  obtain ⟨hht, -, -⟩ | ⟨he, -, -⟩ := kvsUnsubscribe_spec h.inv hk
  · exact hht ▸ h
  · exact h.fewer he.inv (he.fewer fun _ hs => hs.1)

theorem Sound.terminate (h : Sound ht) {closed goesOn : Bool}
    (hk : terminate ht client closed false = .ok (ht', client', goesOn)) : Sound ht' := by
  obtain ⟨-, hinv, hsub⟩ := terminate_spec h.inv hk
  exact h.fewer hinv fun fd j hj => ((hsub fd j).mp hj).1

theorem Sound.serves {s t : State γ} {e : Event γ} (h : Sound s.ht) (hs : Serves s e t) :
    Sound t.ht := by
  cases hs with
  | connect => exact h
  | request hc hk =>
    obtain he | hend | ⟨key, o, -, ho, he | hend⟩ | ⟨key, o, -, ho, he⟩ := manageRequest_cases hk
    · obtain ⟨rfl, -⟩ := Prod.mk.inj he
      exact h
    · exact h.terminate hend
    · obtain ⟨rfl, -⟩ := Prod.mk.inj he
      exact h.subscribe ho
    · exact (h.subscribe ho).terminate hend
    · obtain ⟨rfl, -⟩ := Prod.mk.inj he
      exact h.unsubscribe ho
  | writePair hk =>
    obtain ⟨hinv, hsub⟩ := fewer_writePair h.inv hk
    exact h.fewer hinv hsub
  | deletePair hk =>
    obtain ⟨hinv, hsub⟩ := fewer_deletePair h.inv hk
    exact h.fewer hinv hsub

theorem sound_of_run {es : List (Event γ)} {s : State γ}
    (hrun : Run Serves State.initial es s) : Sound s.ht := by
  refine hrun.invariant (I := fun s => Sound s.ht) ⟨subInv_create, fun fd key hk => ?_⟩
    fun u e v hu hv => hu.serves hv
  exact (not_subscribed_create fd key hk).elim

/-- A reply to a subscription is '0' or '1', and '1' exactly when the key is in the table and the
descriptor is on its list. -/
def SubscribeTrue (ht : HashTable) (key : CStr) (client : Client) (luck : Luck) : Prop :=
  ∀ o result, kvsSubscribe ht key client luck = .ok o →
    o.answer = some (opCodeSubscribe, result) →
    (result = resultKeyDoesntExist ∨ result = resultKeyExists) ∧
      (result = resultKeyExists ↔ Present o.ht key ∧ Subscribed o.ht client.fdNotif key)

/-- A reply to an unsubscription is '0' or '1', and '0' exactly when the descriptor was on the list
of the key and is no longer. -/
def UnsubscribeTrue (ht : HashTable) (key : CStr) (client : Client) (luck : Luck) : Prop :=
  ∀ o result, kvsUnsubscribe ht key client luck = .ok o →
    o.answer = some (opCodeUnsubscribe, result) →
    (result = UInt8.ofNat '0'.toNat ∨ result = UInt8.ofNat '1'.toNat) ∧
      (result = UInt8.ofNat '0'.toNat ↔
        Subscribed ht client.fdNotif key ∧ ¬ Subscribed o.ht client.fdNotif key)

theorem bucketOf_of_present (h : Present ht key) : ∃ b, bucketOf key = .ok b := by
  cases hb : bucketOf key with
  | ok b => exact ⟨b, rfl⟩
  | error e => simp [Present, subscribers, nodeOf, hb] at h

theorem exists_ne : resultKeyExists ≠ resultKeyDoesntExist := by decide

theorem subscribeTrue_iff (h : Sound ht) (key : CStr) (client : Client) (luck : Luck) :
    SubscribeTrue ht key client luck ↔ refused key = true ∨ ¬ Present ht key ∨
      Subscribed ht client.fdNotif key ∨ luck.subscriber = true := by
  constructor
  · intro htrue
    by_contra hcon
    simp only [not_or, not_not, Bool.not_eq_true] at hcon
    obtain ⟨hr, hp, hn, hm⟩ := hcon
    -- the subscriber could not be added, and the reply is '1' all the same
    obtain ⟨b, hb⟩ := bucketOf_of_present hp
    obtain ⟨o, ho⟩ : ∃ o, kvsSubscribe ht key client luck = .ok o := kvsSubscribe_ok hr hb luck
    obtain ⟨hr', -⟩ | hspec := kvsSubscribe_cases h.inv ho
    · simp [hr] at hr'
    · have hfresh : ¬ Fresh ht key client.fdNotif luck := fun hf =>
        hf.2.elim (by simp [hm]) fun hnot => hnot hp
      have ha := (hspec.answered fun hs => hfresh hs.1).1
      rw [if_pos hp] at ha
      have hsub := ((htrue o _ ho ha).2.mp rfl).2
      rw [hspec.effect.self] at hsub
      simp [hn, hm] at hsub
  · intro hcond o result ho ha
    obtain ⟨hr, rfl⟩ | hspec := kvsSubscribe_cases h.inv ho
    · obtain rfl : resultKeyDoesntExist = result := by simpa using ha
      refine ⟨.inl rfl, iff_of_false exists_ne.symm fun hs => ?_⟩
      rw [h.accepted _ _ hs.2] at hr
      cases hr
    · have hanswered : ¬ (Fresh ht key client.fdNotif luck ∧
          ¬ (luck.newSub = true ∧ luck.newSubKey = true)) := fun hs => by
        rw [(hspec.silent hs.1 hs.2).1] at ha
        cases ha
      rw [(hspec.answered hanswered).1] at ha
      obtain rfl : (if Present ht key then resultKeyExists else resultKeyDoesntExist) = result := by
        simpa using ha
      rw [hspec.effect.present, hspec.effect.self]
      by_cases hp : Present ht key
      · rw [if_pos hp]
        refine ⟨.inr rfl, iff_of_true rfl ⟨hp, ?_⟩⟩
        obtain hr | hn | hs | hm := hcond
        · rw [hspec.accepted] at hr
          cases hr
        · exact absurd hp hn
        · exact .inl hs
        · exact .inr ⟨rfl, hp, hm⟩
      · rw [if_neg hp]
        exact ⟨.inl rfl, iff_of_false exists_ne.symm fun hs => hp hs.1⟩

/-- What an unsubscription returns, by the list that is there. -/
theorem unsubscribeChain_found (ht : HashTable) {b : Bucket} (hb : bucketOf key = .ok b)
    (fd : Fd) : (unsubscribeChain (ht b) key fd).2 = 0 ↔ Subscribed ht fd key := by
  rw [Subscribed, subscribers_eq ht hb]
  cases hn : findNode key (ht b) with
  | none => simp [unsubscribeChain, hn]
  | some n =>
    by_cases hl : n.subscriber = []
    · simp [unsubscribeChain, hn, hl]
    · by_cases hm : fd ∈ n.subscriber <;> simp [unsubscribeChain, hn, hl, removeSubscriber, hm]

theorem unsubscribeTrue_iff (h : Sound ht) (key : CStr) (client : Client) (luck : Luck) :
    UnsubscribeTrue ht key client luck ↔ refused key = false := by
  cases hr : refused key with
  | true =>
    -- the answer is the byte 1
    refine iff_of_false (fun htrue => ?_) (by simp)
    have hbyte := (htrue _ 1 (kvsUnsubscribe_refused hr luck) rfl).1
    revert hbyte
    decide
  | false =>
    refine iff_of_true (fun o result ho ha => ?_) rfl
    obtain ⟨b, hb⟩ := bucketOf_of_kvsUnsubscribe hr ho
    have heffect := effect_unsubscribeChain h.inv hb client.fdNotif
    rw [kvsUnsubscribe_eq hr hb] at ho
    obtain rfl := Except.ok.inj ho
    have hne : UInt8.ofNat '1'.toNat ≠ UInt8.ofNat '0'.toNat := by decide
    have hfound := unsubscribeChain_found ht hb client.fdNotif
    obtain rfl := (Prod.mk.inj (Option.some.inj ha)).2
    rw [heffect.self]
    by_cases hsub : Subscribed ht client.fdNotif key
    · rw [if_neg (not_not.mpr (hfound.mpr hsub))]
      exact ⟨.inl rfl, iff_of_true rfl ⟨hsub, fun hk => hk.2 rfl⟩⟩
    · rw [if_pos fun h0 => hsub (hfound.mp h0)]
      exact ⟨.inr rfl, iff_of_false hne fun hk => hsub hk.1⟩

/-- In every state that requests, writes and deletions reach, with any outcome of the allocations,
a reply to a subscription tells the truth unless the key is there and the subscriber could not be
added, and a reply to an unsubscription does unless the key is refused. -/
theorem replies_true_iff {es : List (Event γ)} {s : State γ} (hrun : Run Serves State.initial es s)
    (client : Client) (key : CStr) (luck : Luck) :
    (SubscribeTrue s.ht key client luck ↔ refused key = true ∨ ¬ Present s.ht key ∨
      Subscribed s.ht client.fdNotif key ∨ luck.subscriber = true) ∧
    (UnsubscribeTrue s.ht key client luck ↔ refused key = false) :=
  ⟨subscribeTrue_iff (sound_of_run hrun) key client luck,
    unsubscribeTrue_iff (sound_of_run hrun) key client luck⟩

end Replies

/-- A client is connected. -/
def connected : List (Event Unit) := [.connect () ⟨3, 4, 5, []⟩]

theorem run_connected : Run Serves State.initial connected
    ⟨createHashTable, update (fun _ => none) () (some ⟨3, 4, 5, []⟩)⟩ :=
  Run.single (Serves.connect rfl rfl (by rintro _ _ ⟨⟩))

/-- The reply to the unsubscription of an empty key is the byte 1. -/
theorem not_replies_true : ∃ s : State Unit, Run Serves State.initial connected s ∧
    s.clients () = some ⟨3, 4, 5, []⟩ ∧
    ¬ UnsubscribeTrue s.ht (.ofBuffer []) ⟨3, 4, 5, []⟩ .all := by
  refine ⟨_, run_connected, rfl, fun htrue => ?_⟩
  have hbyte := (htrue _ 1 (kvsUnsubscribe_refused (by decide) .all) rfl).1
  revert hbyte
  decide

theorem replies_true_iff_connected : ∃ s : State Unit, Run Serves State.initial connected s ∧
    SubscribeTrue s.ht (.ofBuffer (chars ['k'])) ⟨3, 4, 5, []⟩ .all ∧
    UnsubscribeTrue s.ht (.ofBuffer (chars ['k'])) ⟨3, 4, 5, []⟩ .all := by
  obtain ⟨hsubscribe, hunsubscribe⟩ :=
    replies_true_iff run_connected ⟨3, 4, 5, []⟩ (.ofBuffer (chars ['k'])) .all
  exact ⟨_, run_connected, hsubscribe.mpr (.inr (.inr (.inr rfl))), hunsubscribe.mpr (by decide)⟩

/-! ### What a failed subscription leaves -/

/-- The subscriber list of the key is not changed by a subscription that is not recorded in the
client's list, and after the disconnection that follows the descriptor is on no list. -/
def LeavesNoTrace (ht : HashTable) (key : CStr) (client : Client) (luck : Luck) : Prop :=
  ∀ o, kvsSubscribe ht key client luck = .ok o → o.status = -1 → o.client = client →
    subscribers o.ht key = subscribers ht key ∧
      ∀ closed, ∃ d, kvsDisconnect o.ht o.client closed = .ok d ∧
        ∀ k, ¬ Subscribed d.ht client.fdNotif k

/-- The subscription is not new to the table, cannot be recorded there, or can be recorded in both
places. -/
def Recordable (ht : HashTable) (key : CStr) (client : Client) (luck : Luck) : Prop :=
  refused key = true ∨ ¬ Present ht key ∨ Subscribed ht client.fdNotif key ∨
    luck.subscriber = false ∨ (luck.newSub = true ∧ luck.newSubKey = true)

instance (ht : HashTable) (fd : Fd) (key : CStr) : Decidable (Subscribed ht fd key) :=
  inferInstanceAs (Decidable (∃ l ∈ subscribers ht key, fd ∈ l))

instance (ht : HashTable) (key : CStr) (client : Client) (luck : Luck) :
    Decidable (Recordable ht key client luck) :=
  inferInstanceAs (Decidable (_ ∨ _ ∨ _ ∨ _ ∨ _))

/-- The descriptors on the lists are those of connected clients, each of which has the key in its
own list. -/
structure Tracked (s : State γ) : Prop where
  inv : SubInv s.ht
  owned : ∀ fd key, Subscribed s.ht fd key → ∃ c client, s.clients c = some client ∧
    client.fdNotif = fd ∧ key ∈ client.subscriptions
  distinct : ∀ c d r q, s.clients c = some r → s.clients d = some q → r.fdNotif = q.fdNotif → c = d
  valid : ∀ c client, s.clients c = some client → ∀ key ∈ client.subscriptions,
    key.startsAlnum = true

/-- Every subscription of a request can be recorded in both places or in none. -/
def Records (s : State γ) (e : Event γ) : Prop :=
  ∀ c client key luck closed, e = .request c (.subscribe key) luck closed →
    s.clients c = some client → Recordable s.ht key client luck

omit [DecidableEq γ] in
theorem tracked_initial : Tracked (State.initial : State γ) where
  inv := subInv_create
  owned fd key h := (not_subscribed_create fd key h).elim
  distinct _ _ _ _ h := by cases h
  valid _ _ h := by cases h

omit [DecidableEq γ] in
/-- A client has the keys of its descriptor in its own list. -/
theorem Tracked.own {s : State γ} (h : Tracked s) {c : γ} {client : Client}
    (hc : s.clients c = some client) {key : CStr} (hk : Subscribed s.ht client.fdNotif key) :
    key ∈ client.subscriptions := by
  obtain ⟨d, r, hd, hfd, hmem⟩ := h.owned _ key hk
  obtain rfl := h.distinct d c r client hd hc hfd
  rw [hc] at hd
  obtain rfl := Option.some.inj hd
  exact hmem

section Clients
variable {ht ht' : HashTable} {key : CStr} {client client' : Client} {luck : Luck} {o : Outcome}

/-- A recordable subscription that leaves the client as it was leaves the key's list as it was. -/
theorem SubscribeOutcome.lists_same (h : SubscribeOutcome ht key client luck o)
    (hrec : Recordable ht key client luck) (hclient : o.client = client) :
    subscribers o.ht key = subscribers ht key := by
  have hnew : ¬ (Fresh ht key client.fdNotif luck ∧ luck.newSub = true ∧
      luck.newSubKey = true) := by
    intro hn
    rw [h.recorded hn.1 hn.2.1 hn.2.2] at hclient
    simpa using congrArg (List.length ∘ Client.subscriptions) hclient
  rw [h.lists]
  cases hl : subscribers ht key with
  | none => rfl
  | some l =>
    have hp : Present ht key := by simp [Present, hl]
    have hiff : Subscribed ht client.fdNotif key ↔ client.fdNotif ∈ l := by
      simp [Subscribed, hl]
    cases hm : luck.subscriber with
    | false => simp
    | true =>
      have hin : client.fdNotif ∈ l := by
        by_contra hn
        obtain hr | hp' | hs | hm' | hboth := hrec
        · simp [h.accepted] at hr
        · exact hp' hp
        · exact hn (hiff.mp hs)
        · simp [hm] at hm'
        · exact hnew ⟨⟨fun hs => hn (hiff.mp hs), .inl hm⟩, hboth⟩
      simp [addFd, hin]

/-- What a request leaves of a client whose list has the keys of its descriptor: the descriptor is
again on the lists of these keys only, or it is on none and the session is over. -/
structure Keeps (ht : HashTable) (client : Client) (r : HashTable × Client × Bool) : Prop where
  inv : SubInv r.1
  others : ∀ g k, g ≠ client.fdNotif → Subscribed r.1 g k → Subscribed ht g k
  fdNotif : r.2.2 = true → r.2.1.fdNotif = client.fdNotif
  own : r.2.2 = true → ∀ k, Subscribed r.1 client.fdNotif k → k ∈ r.2.1.subscriptions
  gone : r.2.2 = false → ∀ k, ¬ Subscribed r.1 client.fdNotif k
  valid : r.2.2 = true → ∀ k ∈ r.2.1.subscriptions, k.startsAlnum = true

/-- One request after another. -/
theorem Keeps.trans {r : HashTable × Client × Bool} (h : Keeps ht client (ht', client', true))
    (h' : Keeps ht' client' r) : Keeps ht client r := by
  have hfd : client'.fdNotif = client.fdNotif := h.fdNotif rfl
  refine ⟨h'.inv, fun g k hg hk => h.others g k hg (h'.others g k (hfd ▸ hg) hk),
    fun hr => (h'.fdNotif hr).trans hfd, ?_, ?_, h'.valid⟩
  · rw [← hfd]
    exact h'.own
  · rw [← hfd]
    exact h'.gone

/-- The walk takes the descriptor off every list that it is on. -/
theorem keeps_gone (hinv : SubInv ht')
    (hown : ∀ k, Subscribed ht client.fdNotif k → k ∈ client.subscriptions)
    (hsub : ∀ g j, Subscribed ht' g j ↔
      Subscribed ht g j ∧ ¬ (g = client.fdNotif ∧ j ∈ client.subscriptions)) :
    Keeps ht client (ht', client', false) := by
  refine ⟨hinv, fun g k _ hk => ((hsub g k).mp hk).1, by simp, by simp, fun _ k hk => ?_, by simp⟩
  obtain ⟨hk, hnot⟩ := (hsub _ k).mp hk
  exact hnot ⟨rfl, hown k hk⟩

theorem keeps_terminate (hinv : SubInv ht)
    (hown : ∀ k, Subscribed ht client.fdNotif k → k ∈ client.subscriptions) {closed : Bool}
    {r : HashTable × Client × Bool} (h : terminate ht client closed false = .ok r) :
    Keeps ht client r := by
  obtain ⟨ht', client', goesOn⟩ := r
  obtain ⟨rfl, hinv', hsub⟩ := terminate_spec hinv h
  exact keeps_gone hinv' hown hsub

variable (hinv : SubInv ht) (hown : ∀ k, Subscribed ht client.fdNotif k → k ∈ client.subscriptions)
  (hvalid : ∀ k ∈ client.subscriptions, k.startsAlnum = true)
include hinv hown hvalid

theorem keeps_subscribe (hrec : Recordable ht key client luck)
    (h : kvsSubscribe ht key client luck = .ok o) : Keeps ht client (o.ht, o.client, true) := by
  obtain ⟨-, rfl⟩ | hspec := kvsSubscribe_cases hinv h
  · exact ⟨hinv, fun _ _ _ hk => hk, fun _ => rfl, fun _ => hown, by simp, fun _ => hvalid⟩
  · have hclient : o.client = client ∨
        o.client = { client with subscriptions := key :: client.subscriptions } := by
      by_cases hr : Fresh ht key client.fdNotif luck ∧ luck.newSub = true ∧ luck.newSubKey = true
      · exact .inr (hspec.recorded hr.1 hr.2.1 hr.2.2)
      · exact .inl (hspec.notRecorded hr)
    have hfd : o.client.fdNotif = client.fdNotif := by
      obtain he | he := hclient <;> rw [he]
    have hmem : ∀ k ∈ client.subscriptions, k ∈ o.client.subscriptions := by
      intro k hk
      obtain he | he := hclient
      · rwa [he]
      · rw [he]
        exact List.mem_cons_of_mem _ hk
    refine ⟨hspec.effect.inv, fun g k hg hk => ?_, fun _ => hfd, fun _ k hk => ?_, by simp,
      fun _ k hk => ?_⟩
    · rw [hspec.effect.subscribed_iff] at hk
      split_ifs at hk with he
      · exact he ▸ hk.resolve_right fun hnew => hg hnew.1
      · exact hk
    · rw [hspec.effect.subscribed_iff] at hk
      split_ifs at hk with he
      · by_cases hs : Subscribed ht client.fdNotif key
        · exact hmem k (hown k (he ▸ hs))
        · -- the subscription is new, so it was recorded in both places
          obtain ⟨-, hp, hm⟩ := hk.resolve_left hs
          have hboth : luck.newSub = true ∧ luck.newSubKey = true := by
            obtain hr | hn | hs' | hm' | hboth := hrec
            · simp [hspec.accepted] at hr
            · exact absurd hp hn
            · exact absurd hs' hs
            · simp [hm] at hm'
            · exact hboth
          rw [hspec.recorded ⟨hs, .inl hm⟩ hboth.1 hboth.2, he]
          exact List.mem_cons_self
      · exact hmem k (hown k hk)
    · obtain he | he := hclient
      · exact hvalid k (he ▸ hk)
      · rw [he] at hk
        rcases List.mem_cons.mp hk with rfl | hk
        · exact hspec.valid
        · exact hvalid k hk

theorem keeps_unsubscribe (h : kvsUnsubscribe ht key client luck = .ok o) :
    Keeps ht client (o.ht, o.client, true) := by
  obtain ⟨hht, hcl, -⟩ | ⟨he, hfd, hlist⟩ := kvsUnsubscribe_spec hinv h
  · rw [hht, hcl]
    exact ⟨hinv, fun _ _ _ hk => hk, fun _ => rfl, fun _ => hown, by simp, fun _ => hvalid⟩
  · refine ⟨he.inv, fun g k _ => he.fewer (fun _ hs => hs.1) g k, fun _ => hfd, fun _ k hk => ?_,
      by simp, fun _ k hk => hvalid k ((hlist k).mp hk).1⟩
    rw [he.subscribed_iff] at hk
    split_ifs at hk with hj
    · exact absurd rfl hk.2
    · exact (hlist k).mpr ⟨hown k hk, hj⟩

/-- The descriptor of the client is on no other lists than before, and the two records still agree
for it. -/
theorem keeps_request {request : Request} {closed : Bool} {r : HashTable × Client × Bool}
    (hrec : ∀ key, request = .subscribe key → Recordable ht key client luck)
    (h : manageRequest ht client request luck closed false = .ok r) : Keeps ht client r := by
  obtain rfl | hend | ⟨key, o, hreq, ho, rfl | hend⟩ | ⟨key, o, -, ho, rfl⟩ :=
    manageRequest_cases h
  · exact ⟨hinv, fun _ _ _ hk => hk, fun _ => rfl, fun _ => hown, by simp, fun _ => hvalid⟩
  · exact keeps_terminate hinv hown hend
  · exact keeps_subscribe hinv hown hvalid (hrec key hreq) ho
  · -- the disconnection after a subscription that failed
    have hsub := keeps_subscribe hinv hown hvalid (hrec key hreq) ho
    have hown' : ∀ k, Subscribed o.ht o.client.fdNotif k → k ∈ o.client.subscriptions := by
      rw [hsub.fdNotif rfl]
      exact hsub.own rfl
    exact hsub.trans (keeps_terminate hsub.inv hown' hend)
  · exact keeps_unsubscribe hinv hown hvalid ho

end Clients

section Steps
variable {s t : State γ}

/-- A request of one connected client. -/
theorem Tracked.replace (h : Tracked s) {c : γ} {client client' : Client} {ht : HashTable}
    {goesOn : Bool} (hc : s.clients c = some client)
    (hk : Keeps s.ht client (ht, client', goesOn)) :
    Tracked ⟨ht, update s.clients c (if goesOn then some client' else none)⟩ := by
  have hgoes : ∀ r, (if goesOn then some client' else none) = some r →
      goesOn = true ∧ client' = r := by
    intro r hr
    split_ifs at hr with hg
    exact ⟨hg, Option.some.inj hr⟩
  refine ⟨hk.inv, fun fd key hsub => ?_, distinct_replace h.distinct hc fun r hr => ?_,
    fun d r hd => ?_⟩
  · by_cases hf : fd = client.fdNotif
    · cases hg : goesOn with
      | true => exact ⟨c, client', by simp, hf ▸ hk.fdNotif hg, hk.own hg key (hf ▸ hsub)⟩
      | false => exact absurd (hf ▸ hsub) (hk.gone hg key)
    · obtain ⟨d, r, hd, hr, hmem⟩ := h.owned fd key (hk.others fd key hf hsub)
      have hc' : ∀ q, s.clients c = some q → q = client := fun q hq =>
        Option.some.inj (hq.symm.trans hc)
      exact ⟨d, r, still_connected hc' hd (hr ▸ hf), hr, hmem⟩
  · obtain ⟨hg, rfl⟩ := hgoes r hr
    exact hk.fdNotif hg
  · obtain ⟨-, hr⟩ | ⟨-, hd⟩ := connected_cases hd
    · obtain ⟨hg, rfl⟩ := hgoes r hr
      exact hk.valid hg
    · exact h.valid d r hd

omit [DecidableEq γ] in
/-- A change of the table that takes subscriptions away. -/
theorem Tracked.table (h : Tracked s) {ht : HashTable} (hinv : SubInv ht)
    (hsub : ∀ fd key, Subscribed ht fd key → Subscribed s.ht fd key) :
    Tracked { s with ht := ht } :=
  ⟨hinv, fun fd key hk => h.owned fd key (hsub fd key hk), h.distinct, h.valid⟩

theorem Tracked.connect (h : Tracked s) {c : γ} {client : Client} (hc : s.clients c = none)
    (hl : client.subscriptions = [])
    (hfd : ∀ d r, s.clients d = some r → r.fdNotif ≠ client.fdNotif) :
    Tracked { s with clients := update s.clients c (some client) } := by
  refine ⟨h.inv, fun fd key hk => ?_, distinct_connect h.distinct hfd, fun d r hd key hk => ?_⟩
  · obtain ⟨d, r, hd, hr, hmem⟩ := h.owned fd key hk
    exact ⟨d, r, still_connected (by simp [hc]) hd (hfd d r hd), hr, hmem⟩
  · obtain ⟨-, hr⟩ | ⟨-, hd⟩ := connected_cases hd
    · obtain rfl := Option.some.inj hr
      simp [hl] at hk
    · exact h.valid d r hd key hk

theorem Tracked.serves {e : Event γ} (h : Tracked s) (hrec : Records s e) (hs : Serves s e t) :
    Tracked t := by
  cases hs with
  | connect hc hl hfd => exact h.connect hc hl hfd
  | @request c client _ request luck closed _ _ hc hk =>
    exact h.replace hc (keeps_request h.inv (fun _ => h.own hc) (h.valid c client hc)
      (fun key he => hrec c client key luck closed (he ▸ rfl) hc) hk)
  | writePair hk =>
    obtain ⟨hinv, hsub⟩ := fewer_writePair h.inv hk
    exact h.table hinv hsub
  | deletePair hk =>
    obtain ⟨hinv, hsub⟩ := fewer_deletePair h.inv hk
    exact h.table hinv hsub

theorem tracked_of_run {es : List (Event γ)}
    (hrun : Run (guarded Records Serves) State.initial es s) : Tracked s :=
  hrun.invariant tracked_initial fun _ _ _ hu hv => hu.serves hv.1 hv.2

omit [DecidableEq γ] in
theorem leavesNoTrace_iff_of_tracked (h : Tracked s) {c : γ} {client : Client}
    (hc : s.clients c = some client) (key : CStr) (luck : Luck) :
    LeavesNoTrace s.ht key client luck ↔ Recordable s.ht key client luck := by
  constructor
  · intro htrace
    by_contra hcon
    simp only [Recordable, not_or, not_not, Bool.not_eq_true, Bool.not_eq_false] at hcon
    obtain ⟨hr, hp, hn, hm, hboth⟩ := hcon
    obtain ⟨b, hb⟩ := bucketOf_of_present hp
    obtain ⟨o, ho⟩ : ∃ o, kvsSubscribe s.ht key client luck = .ok o := kvsSubscribe_ok hr hb luck
    obtain ⟨hr', -⟩ | hspec := kvsSubscribe_cases h.inv ho
    · simp [hr] at hr'
    · have hfresh : Fresh s.ht key client.fdNotif luck := ⟨hn, .inl hm⟩
      have hstatus := (hspec.silent hfresh hboth).2
      have hsame := (htrace o ho hstatus (hspec.notRecorded fun hs => hboth hs.2)).1
      -- the descriptor stays on the list of the key
      have hsub : Subscribed s.ht client.fdNotif key := by
        rw [Subscribed, ← hsame]
        exact (hspec.effect.self _).mpr (.inr ⟨rfl, hp, hm⟩)
      exact hn hsub
  · intro hrec o ho hstatus hclient
    obtain ⟨-, rfl⟩ | hspec := kvsSubscribe_cases h.inv ho
    · cases hstatus
    · have hsame := hspec.lists_same hrec hclient
      obtain ⟨ht', hw⟩ := unsubscribeAll_ok o.ht client (h.valid c client hc)
      have hkeeps := keeps_subscribe h.inv (fun _ => h.own hc) (h.valid c client hc) hrec ho
      obtain ⟨-, hsub, -⟩ := unsubscribeAll_spec client.subscriptions hspec.effect.inv hw
      refine ⟨hsame, fun closed => ?_⟩
      rw [hclient, kvsDisconnect, hw]
      refine ⟨_, rfl, fun k hk => ?_⟩
      obtain ⟨hk, hnot⟩ := (hsub _ k).mp hk
      have hmem := hkeeps.own rfl k hk
      rw [hclient] at hmem
      exact hnot ⟨rfl, hmem⟩

/-- In every run whose subscriptions are recordable, a subscription of a connected client that is
not recorded in its list leaves no trace exactly when it is recordable, too. -/
theorem leavesNoTrace_iff {es : List (Event γ)}
    (hrun : Run (guarded Records Serves) State.initial es s) {c : γ} {client : Client}
    (hc : s.clients c = some client) (key : CStr) (luck : Luck) :
    LeavesNoTrace s.ht key client luck ↔ Recordable s.ht key client luck :=
  leavesNoTrace_iff_of_tracked (tracked_of_run hrun) hc key luck

end Steps

/-- A client is connected, and a key is in the table. -/
def keyWritten : List (Event Unit) :=
  connected ++ [.writePair (.ofBuffer (chars ['k'])) (.ofBuffer (chars ['1'])) .ok]

theorem run_keyWritten : ∃ s : State Unit,
    Run (guarded Records Serves) State.initial keyWritten s ∧
      s.clients () = some ⟨3, 4, 5, []⟩ ∧ Present s.ht (.ofBuffer (chars ['k'])) ∧
      ¬ Subscribed s.ht 5 (.ofBuffer (chars ['k'])) := by
  have hb : bucketOf (.ofBuffer (chars ['k'])) = .ok ⟨10, by decide⟩ := by decide
  have h₁ : Serves (State.initial : State Unit) (.connect () ⟨3, 4, 5, []⟩) _ :=
    .connect rfl rfl (by rintro _ _ ⟨⟩)
  have hfirst : Run (guarded Records Serves) State.initial connected _ :=
    .single ⟨by rintro _ _ _ _ _ ⟨⟩, h₁⟩
  have h₂ := hfirst.snoc
    ⟨by rintro _ _ _ _ _ ⟨⟩, .writePair (writePair_eq hb (.ofBuffer (chars ['1'])) .ok)⟩
  exact ⟨_, h₂, rfl, by decide, by decide⟩

/-- The copy of the key for the client's list fails. -/
theorem not_leavesNoTrace : ∃ s : State Unit,
    Run (guarded Records Serves) State.initial keyWritten s ∧
      s.clients () = some ⟨3, 4, 5, []⟩ ∧
      ¬ LeavesNoTrace s.ht (.ofBuffer (chars ['k'])) ⟨3, 4, 5, []⟩ ⟨true, true, false, true⟩ := by
  obtain ⟨s, hrun, hc, hp, hn⟩ := run_keyWritten
  refine ⟨s, hrun, hc, fun htrace => ?_⟩
  obtain hr | hnot | hs | hm | hboth :=
    (leavesNoTrace_iff_of_tracked (tracked_of_run hrun) hc _ _).mp htrace
  · revert hr
    decide
  · exact hnot hp
  · exact hn hs
  · cases hm
  · cases hboth.2

/-- The subscription finds no memory for the subscriber, and its answer cannot be written: it fails
and is in no list. -/
theorem leavesNoTrace_iff_recorded : ∃ s : State Unit,
    Run (guarded Records Serves) State.initial keyWritten s ∧
      (∃ o, kvsSubscribe s.ht (.ofBuffer (chars ['k'])) ⟨3, 4, 5, []⟩ ⟨false, false, true, false⟩ =
        .ok o ∧ o.status = -1 ∧ o.client = ⟨3, 4, 5, []⟩) ∧
      LeavesNoTrace s.ht (.ofBuffer (chars ['k'])) ⟨3, 4, 5, []⟩ ⟨false, false, true, false⟩ := by
  obtain ⟨s, hrun, hc, hp, -⟩ := run_keyWritten
  have hr : refused (.ofBuffer (chars ['k'])) = false := by decide
  obtain ⟨b, hb⟩ := bucketOf_of_present hp
  obtain ⟨o, ho⟩ : ∃ o, kvsSubscribe s.ht (.ofBuffer (chars ['k'])) ⟨3, 4, 5, []⟩
      ⟨false, false, true, false⟩ = .ok o := kvsSubscribe_ok hr hb _
  refine ⟨s, hrun, ⟨o, ho, ?_⟩, (leavesNoTrace_iff hrun hc _ _).mpr (.inr (.inr (.inr (.inl rfl))))⟩
  obtain ⟨hr', -⟩ | hspec := kvsSubscribe_cases (tracked_of_run hrun).inv ho
  · rw [hr] at hr'
    cases hr'
  · have hnot : ¬ Fresh s.ht (.ofBuffer (chars ['k'])) 5 ⟨false, false, true, false⟩ := by
      rintro ⟨-, hm | hnp⟩
      · cases hm
      · exact hnp hp
    exact ⟨(hspec.answered fun h => hnot h.1).2, hspec.notRecorded fun h => hnot h.1⟩

end IstKvs.Sessions

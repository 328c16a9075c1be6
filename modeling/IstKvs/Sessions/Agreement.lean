import IstKvs.Sessions.Requests
import IstKvs.Store.Subscribers
import IstKvs.Systems.Run

/-! The two records of subscriptions, the subscriber lists of the table and the list
of each client, under sequences of complete calls. They agree up to deletions: a
client is in the list of a key exactly when it has the key in its own list and the
key has stayed in the table since a subscription of the client found it there. -/

namespace IstKvs.Sessions

open IstKvs.Store IstKvs.Systems Function

/-! ### Sequences of complete calls -/

variable {γ : Type*} [DecidableEq γ]

inductive Op (γ : Type*)
  | connect (c : γ) (client : Client)
  | subscribe (c : γ) (key : CStr)
  | unsubscribe (c : γ) (key : CStr)
  | disconnect (c : γ) (closed : Bool)
  | writePair (key value : CStr)
  | deletePair (key : CStr)
  deriving DecidableEq

/-- The table, and the record of each connected client. -/
structure State (γ : Type*) where
  ht : HashTable
  clients : γ → Option Client

def State.initial : State γ := ⟨createHashTable, fun _ => none⟩

/-- One complete call with all allocations succeeding. A client is connected with an
empty list and a notification descriptor that no connected client has. -/
inductive Step (s : State γ) : Op γ → State γ → Prop
  | connect {c : γ} {client : Client} (hc : s.clients c = none) (hl : client.subscriptions = [])
      (hfd : ∀ d r, s.clients d = some r → r.fdNotif ≠ client.fdNotif) :
      Step s (.connect c client) { s with clients := update s.clients c (some client) }
  | subscribe {c : γ} {client : Client} {key : CStr} {o : Outcome} (hc : s.clients c = some client)
      (h : kvsSubscribe s.ht key client .all = .ok o) :
      Step s (.subscribe c key) ⟨o.ht, update s.clients c (some o.client)⟩
  | unsubscribe {c : γ} {client : Client} {key : CStr} {o : Outcome}
      (hc : s.clients c = some client) (h : kvsUnsubscribe s.ht key client .all = .ok o) :
      Step s (.unsubscribe c key) ⟨o.ht, update s.clients c (some o.client)⟩
  | disconnect {c : γ} {client : Client} {closed : Bool} {o : Outcome}
      (hc : s.clients c = some client) (h : kvsDisconnect s.ht client closed = .ok o) :
      Step s (.disconnect c closed) ⟨o.ht, update s.clients c none⟩
  | writePair {key value : CStr} {ht : HashTable} {status : ℤ} {sent : List Message}
      (h : writePair s.ht key value .ok = .ok (ht, status, sent)) :
      Step s (.writePair key value) { s with ht := ht }
  | deletePair {key : CStr} {ht : HashTable} {status : ℤ} {sent : List Message}
      (h : deletePair s.ht key = .ok (ht, status, sent)) :
      Step s (.deletePair key) { s with ht := ht }

/-- The client has subscribed to the key while it was in the table, and the key has
not been deleted since. -/
def Kept (ops : List (Op γ)) (c : γ) (key : CStr) : Prop :=
  ∃ before after s, ops = before ++ .subscribe c key :: after ∧ Run Step State.initial before s ∧
    Present s.ht key ∧ .deletePair key ∉ after

/-! ### What the calls do to the two records -/

/-- The subscription of the descriptor is new: it was not there and can be recorded in the table
if the key is in it. -/
def Fresh (ht : HashTable) (key : CStr) (fd : Fd) (luck : Luck) : Prop :=
  ¬ Subscribed ht fd key ∧ (luck.subscriber = true ∨ ¬ Present ht key)

/-- What a subscription to a key with a bucket leaves, answers and returns. -/
structure SubscribeOutcome (ht : HashTable) (key : CStr) (client : Client) (luck : Luck)
    (o : Outcome) : Prop where
  accepted : refused key = false
  valid : key.startsAlnum = true
  effect : Effect ht o.ht key
    (fun g => Subscribed ht g key ∨ (g = client.fdNotif ∧ Present ht key ∧ luck.subscriber = true))
    (Present ht key)
  lists : subscribers o.ht key = (subscribers ht key).map fun l =>
    if luck.subscriber then addFd client.fdNotif l else l
  recorded : Fresh ht key client.fdNotif luck → luck.newSub = true → luck.newSubKey = true →
    o.client = { client with subscriptions := key :: client.subscriptions }
  notRecorded : ¬ (Fresh ht key client.fdNotif luck ∧ luck.newSub = true ∧ luck.newSubKey = true) →
    o.client = client
  silent : Fresh ht key client.fdNotif luck → ¬ (luck.newSub = true ∧ luck.newSubKey = true) →
    o.answer = none ∧ o.status = -1
  answered : ¬ (Fresh ht key client.fdNotif luck ∧
      ¬ (luck.newSub = true ∧ luck.newSubKey = true)) →
    o.answer = some (opCodeSubscribe, if Present ht key then resultKeyExists
      else resultKeyDoesntExist) ∧ o.status = if luck.respond then 0 else -1

section Calls
variable {ht : HashTable} {key : CStr} {client : Client} {luck : Luck} {o : Outcome}

theorem kvsSubscribe_cases (hinv : SubInv ht) (h : kvsSubscribe ht key client luck = .ok o) :
    (refused key = true ∧ o = ⟨ht, client, some (opCodeSubscribe, resultKeyDoesntExist), 0⟩) ∨
      SubscribeOutcome ht key client luck o := by
  cases hr : refused key with
  | true =>
    rw [kvsSubscribe_refused hr] at h
    exact .inl ⟨rfl, (Except.ok.inj h).symm⟩
  | false =>
    right
    obtain ⟨b, hb⟩ := bucketOf_of_kvsSubscribe hr h
    have hs := bucketOf_eq_ok_iff.mp ⟨b, hb⟩
    obtain ⟨hfound, hstatus⟩ := subscribeChain_found ht hb client.fdNotif luck.subscriber
    have heffect := effect_subscribeChain hinv hb client.fdNotif luck.subscriber
    have hlists : subscribers (update ht b
        (subscribeChain (ht b) key client.fdNotif luck.subscriber).chain) key =
          (subscribers ht key).map fun l =>
            if luck.subscriber then addFd client.fdNotif l else l := by
      rw [subscribers_subscribeChain ht hb, update_self]
    have hresult : (if (subscribeChain (ht b) key client.fdNotif luck.subscriber).found = true
        then resultKeyExists else resultKeyDoesntExist) =
          if Present ht key then resultKeyExists else resultKeyDoesntExist := by
      simp only [hfound]
    rw [kvsSubscribe, if_neg (by simp [hr]), hb] at h
    change (if (subscribeChain (ht b) key client.fdNotif luck.subscriber).subscriptionStatus = 0
      then _ else _) = _ at h
    change _ ↔ Fresh ht key client.fdNotif luck at hstatus
    by_cases hfresh : Fresh ht key client.fdNotif luck
    · rw [if_pos (hstatus.mpr hfresh)] at h
      by_cases hmem : luck.newSub = true ∧ luck.newSubKey = true
      · rw [if_pos (by simp [hmem])] at h
        obtain rfl := Except.ok.inj h
        exact ⟨hr, hs, heffect, hlists, fun _ _ _ => rfl, fun hn => absurd ⟨hfresh, hmem⟩ hn,
          fun _ hn => absurd hmem hn, fun _ => ⟨by rw [hresult], rfl⟩⟩
      · rw [if_neg (by simpa using hmem)] at h
        obtain rfl := Except.ok.inj h
        exact ⟨hr, hs, heffect, hlists, fun _ h₁ h₂ => absurd ⟨h₁, h₂⟩ hmem, fun _ => rfl,
          fun _ _ => ⟨rfl, rfl⟩, fun hn => absurd ⟨hfresh, hmem⟩ hn⟩
    · rw [if_neg fun h0 => hfresh (hstatus.mp h0)] at h
      obtain rfl := Except.ok.inj h
      exact ⟨hr, hs, heffect, hlists, fun hf => absurd hf hfresh, fun _ => rfl,
        fun hf => absurd hf hfresh, fun _ => ⟨by rw [hresult], rfl⟩⟩

/-- A subscription with all allocations succeeding. -/
theorem kvsSubscribe_spec (hinv : SubInv ht) (h : kvsSubscribe ht key client .all = .ok o) :
    (o.ht = ht ∧ o.client = client ∧ refused key = true) ∨
      (Effect ht o.ht key (fun g => Subscribed ht g key ∨ (g = client.fdNotif ∧ Present ht key))
          (Present ht key) ∧ o.client.fdNotif = client.fdNotif ∧ refused key = false ∧
        ∀ k, k ∈ o.client.subscriptions ↔ k ∈ client.subscriptions ∨
          (k = key ∧ ¬ Subscribed ht client.fdNotif key)) := by
  obtain ⟨hr, rfl⟩ | hspec := kvsSubscribe_cases hinv h
  · exact .inl ⟨rfl, rfl, hr⟩
  · right
    have heffect := hspec.effect
    simp only [Luck.all, and_true] at heffect
    by_cases hsub : Subscribed ht client.fdNotif key
    · have hsame := hspec.notRecorded fun hf => hf.1.1 hsub
      rw [hsame]
      exact ⟨heffect, rfl, hspec.accepted, fun k => by simp [hsub]⟩
    · rw [hspec.recorded ⟨hsub, .inl rfl⟩ rfl rfl]
      exact ⟨heffect, rfl, hspec.accepted, fun k => by simp [hsub, or_comm]⟩

theorem kvsUnsubscribe_spec (hinv : SubInv ht)
    (h : kvsUnsubscribe ht key client luck = .ok o) :
    (o.ht = ht ∧ o.client = client ∧ refused key = true) ∨
      (Effect ht o.ht key (fun g => Subscribed ht g key ∧ g ≠ client.fdNotif) (Present ht key) ∧
        o.client.fdNotif = client.fdNotif ∧
        ∀ k, k ∈ o.client.subscriptions ↔ k ∈ client.subscriptions ∧ k ≠ key) := by
  cases hr : refused key with
  | true =>
    rw [kvsUnsubscribe_refused hr] at h
    obtain rfl := Except.ok.inj h
    exact .inl ⟨rfl, rfl, rfl⟩
  | false =>
    right
    obtain ⟨b, hb⟩ := bucketOf_of_kvsUnsubscribe hr h
    rw [kvsUnsubscribe_eq hr hb] at h
    obtain rfl := Except.ok.inj h
    refine ⟨effect_unsubscribeChain hinv hb client.fdNotif, rfl, fun k => ?_⟩
    simp [clientRemoveSubscription, strcmp_eq_zero]

/-- The walk removes the descriptor from the lists of the walked keys and does nothing else. -/
theorem unsubscribeAll_spec (keys : List CStr) {ht' : HashTable} (hinv : SubInv ht)
    (h : keys.foldlM (fun ht key => do
      let r ← kvsAuxUnsubscribe ht key client
      pure r.1) ht = .ok ht') :
    SubInv ht' ∧
      (∀ g j, Subscribed ht' g j ↔ Subscribed ht g j ∧ ¬ (g = client.fdNotif ∧ j ∈ keys)) ∧
      ∀ j, Present ht' j ↔ Present ht j := by
  induction keys generalizing ht with
  | nil =>
    obtain rfl := Except.ok.inj h
    simpa using hinv
  | cons key keys ih =>
    cases hs : key.startsAlnum with
    | false =>
      rw [List.foldlM_cons, kvsAuxUnsubscribe, bucketOf_eq_error hs] at h
      cases h
    | true =>
      obtain ⟨b, hb⟩ := bucketOf_eq_ok_iff.mpr hs
      have he := effect_unsubscribeChain hinv hb client.fdNotif
      rw [List.foldlM_cons, kvsAuxUnsubscribe_eq hb] at h
      obtain ⟨hinv', hsub, hpres⟩ := ih he.inv h
      refine ⟨hinv', fun g j => ?_, fun j => (hpres j).trans (he.present_same j)⟩
      rw [hsub]
      by_cases hj : j = key
      · subst hj
        rw [he.self]
        simp only [List.mem_cons]
        tauto
      · rw [he.others g j hj]
        simp [hj]

end Calls

/-! ### The records of the clients -/

section Clients
variable {clients : γ → Option Client} {c d : γ} {client r : Client} {x : Option Client}

/-- A client that is connected after a change of one record has that record or was connected. -/
theorem connected_cases (h : update clients c x d = some r) :
    (d = c ∧ x = some r) ∨ (d ≠ c ∧ clients d = some r) := by
  by_cases hdc : d = c
  · subst hdc
    rw [update_self] at h
    exact .inl ⟨rfl, h⟩
  · rw [update_of_ne hdc] at h
    exact .inr ⟨hdc, h⟩

/-- A client with another descriptor stays connected. -/
theorem still_connected (hc : ∀ q, clients c = some q → q = client) (hd : clients d = some r)
    (hne : r.fdNotif ≠ client.fdNotif) : update clients c x d = some r := by
  rw [update_of_ne]
  · exact hd
  · rintro rfl
    exact hne (by rw [hc r hd])

/-- A record that keeps its descriptor, or goes, leaves the descriptors apart. -/
theorem distinct_replace
    (h : ∀ c d r q, clients c = some r → clients d = some q → r.fdNotif = q.fdNotif → c = d)
    (hc : clients c = some client) (hx : ∀ r, x = some r → r.fdNotif = client.fdNotif) :
    ∀ d e r q, update clients c x d = some r → update clients c x e = some q →
      r.fdNotif = q.fdNotif → d = e := by
  have hbefore : ∀ d r, update clients c x d = some r →
      ∃ r', clients d = some r' ∧ r'.fdNotif = r.fdNotif := by
    intro d r hd
    obtain ⟨rfl, hr⟩ | ⟨-, hd⟩ := connected_cases hd
    · exact ⟨client, hc, (hx r hr).symm⟩
    · exact ⟨r, hd, rfl⟩
  intro d e r q hd he hrq
  obtain ⟨r', hr', hrfd⟩ := hbefore d r hd
  obtain ⟨q', hq', hqfd⟩ := hbefore e q he
  exact h d e r' q' hr' hq' (hrfd.trans (hrq.trans hqfd.symm))

/-- A new client has a descriptor of its own. -/
theorem distinct_connect
    (h : ∀ c d r q, clients c = some r → clients d = some q → r.fdNotif = q.fdNotif → c = d)
    (hfd : ∀ d r, clients d = some r → r.fdNotif ≠ client.fdNotif) :
    ∀ d e r q, update clients c (some client) d = some r →
      update clients c (some client) e = some q → r.fdNotif = q.fdNotif → d = e := by
  intro d e r q hd he hrq
  obtain ⟨rfl, hr⟩ | ⟨-, hd'⟩ := connected_cases hd
  · obtain rfl := Option.some.inj hr
    obtain ⟨rfl, -⟩ | ⟨-, he'⟩ := connected_cases he
    · rfl
    · exact absurd hrq.symm (hfd e q he')
  · obtain ⟨rfl, hq⟩ | ⟨-, he'⟩ := connected_cases he
    · obtain rfl := Option.some.inj hq
      exact absurd hrq (hfd d r hd')
    · exact h d e r q hd' he' hrq

end Clients

/-! ### The invariant -/

/-- A client is in the list of a key exactly when it has the key in its own list and
the key has been there since; descriptors in lists are those of connected clients. -/
structure Agrees (kept : γ → CStr → Prop) (s : State γ) : Prop where
  inv : SubInv s.ht
  present : ∀ c key, kept c key → Present s.ht key
  owned : ∀ fd key, Subscribed s.ht fd key → ∃ c client, s.clients c = some client ∧
    client.fdNotif = fd
  distinct : ∀ c d r q, s.clients c = some r → s.clients d = some q → r.fdNotif = q.fdNotif → c = d
  accepted : ∀ c client key, s.clients c = some client → key ∈ client.subscriptions →
    refused key = false
  agree : ∀ c client key, s.clients c = some client →
    (Subscribed s.ht client.fdNotif key ↔ key ∈ client.subscriptions ∧ kept c key)

/-- What an operation adds to and takes from the keys that have stayed. -/
def keptAfter (s : State γ) (kept : γ → CStr → Prop) : Op γ → γ → CStr → Prop
  | .subscribe c key => fun d k => kept d k ∨ (d = c ∧ k = key ∧ Present s.ht key)
  | .deletePair key => fun d k => kept d k ∧ k ≠ key
  | _ => kept

omit [DecidableEq γ] in
theorem agrees_initial : Agrees (fun _ _ => False) (State.initial : State γ) where
  inv := subInv_create
  present _ _ h := h.elim
  owned fd key h := (not_subscribed_create fd key h).elim
  distinct _ _ _ _ h := by cases h
  accepted _ _ _ h := by cases h
  agree _ _ _ h := by cases h

section Steps
variable {kept : γ → CStr → Prop} {s t : State γ} {op : Op γ}

/-- A call of one connected client that changes the table at its own descriptor only. -/
theorem Agrees.replace (h : Agrees kept s) {c : γ} {client client' : Client}
    (hc : s.clients c = some client) (hfd : client'.fdNotif = client.fdNotif) {ht' : HashTable}
    {kept' : γ → CStr → Prop} (hinv : SubInv ht') (hpres : ∀ d k, kept' d k → Present ht' k)
    (hacc : ∀ k ∈ client'.subscriptions, refused k = false)
    (hself : ∀ k, Subscribed ht' client.fdNotif k ↔ k ∈ client'.subscriptions ∧ kept' c k)
    (hsub : ∀ fd k, fd ≠ client.fdNotif → (Subscribed ht' fd k ↔ Subscribed s.ht fd k))
    (hkept : ∀ d k, d ≠ c → (kept' d k ↔ kept d k)) :
    Agrees kept' ⟨ht', update s.clients c (some client')⟩ where
  inv := hinv
  present := hpres
  owned fd k hk := by
    by_cases hf : fd = client.fdNotif
    · exact ⟨c, client', update_self .., by rw [hfd, hf]⟩
    · obtain ⟨d, r, hd, hr⟩ := h.owned fd k ((hsub fd k hf).mp hk)
      have hc' : ∀ q, s.clients c = some q → q = client := fun q hq =>
        Option.some.inj (hq.symm.trans hc)
      exact ⟨d, r, still_connected hc' hd (hr ▸ hf), hr⟩
  distinct := distinct_replace h.distinct hc fun r hr => by rw [← Option.some.inj hr, hfd]
  accepted d r k hd hk := by
    obtain ⟨rfl, hr⟩ | ⟨-, hd⟩ := connected_cases hd
    · obtain rfl := Option.some.inj hr
      exact hacc k hk
    · exact h.accepted d r k hd hk
  agree d r k hd := by
    obtain ⟨rfl, hr⟩ | ⟨hdc, hd⟩ := connected_cases hd
    · obtain rfl := Option.some.inj hr
      rw [hfd]
      exact hself k
    · have hf : r.fdNotif ≠ client.fdNotif := fun he => hdc (h.distinct d c r client hd hc he)
      rw [hsub _ _ hf, h.agree d r k hd, hkept d k hdc]

theorem Agrees.connect (h : Agrees kept s) {c : γ} {client : Client} (hc : s.clients c = none)
    (hl : client.subscriptions = [])
    (hfd : ∀ d r, s.clients d = some r → r.fdNotif ≠ client.fdNotif) :
    Agrees kept { s with clients := update s.clients c (some client) } where
  inv := h.inv
  present := h.present
  owned fd k hk := by
    obtain ⟨d, r, hd, hr⟩ := h.owned fd k hk
    exact ⟨d, r, still_connected (by simp [hc]) hd (hfd d r hd), hr⟩
  distinct := distinct_connect h.distinct hfd
  accepted d r k hd hk := by
    obtain ⟨rfl, hr⟩ | ⟨-, hd⟩ := connected_cases hd
    · obtain rfl := Option.some.inj hr
      simp [hl] at hk
    · exact h.accepted d r k hd hk
  agree d r k hd := by
    obtain ⟨rfl, hr⟩ | ⟨-, hd⟩ := connected_cases hd
    · obtain rfl := Option.some.inj hr
      simp only [hl, List.not_mem_nil, false_and, iff_false]
      intro hk
      obtain ⟨e, q, he, hq⟩ := h.owned _ k hk
      exact hfd e q he hq
    · exact h.agree d r k hd

theorem Agrees.disconnect (h : Agrees kept s) {c : γ} {client : Client} {ht' : HashTable}
    (hc : s.clients c = some client)
    (hw : unsubscribeAll s.ht client = .ok ht') :
    Agrees kept ⟨ht', update s.clients c none⟩ := by
  obtain ⟨hinv, hsub, hpres⟩ := unsubscribeAll_spec client.subscriptions h.inv hw
  have hnone : ∀ k, ¬ Subscribed ht' client.fdNotif k := by
    intro k hk
    obtain ⟨hk', hn⟩ := (hsub _ k).mp hk
    exact hn ⟨rfl, ((h.agree c client k hc).mp hk').1⟩
  have hother : ∀ d r, update s.clients c none d = some r → d ≠ c ∧ s.clients d = some r := by
    intro d r hd
    obtain ⟨-, hr⟩ | hd := connected_cases hd
    · cases hr
    · exact hd
  refine ⟨hinv, fun d k hk => (hpres k).mpr (h.present d k hk), fun fd k hk => ?_,
    distinct_replace h.distinct hc (by simp), fun d r k hd hk => ?_, fun d r k hd => ?_⟩
  · obtain ⟨d, r, hd, hr⟩ := h.owned fd k ((hsub fd k).mp hk).1
    have hc' : ∀ q, s.clients c = some q → q = client := fun q hq =>
      Option.some.inj (hq.symm.trans hc)
    refine ⟨d, r, still_connected hc' hd fun hf => ?_, hr⟩
    rw [← hr, hf] at hk
    exact hnone k hk
  · exact h.accepted d r k (hother d r hd).2 hk
  · obtain ⟨hdc, hd'⟩ := hother d r hd
    have hf : r.fdNotif ≠ client.fdNotif := fun he => hdc (h.distinct d c r client hd' hc he)
    rw [hsub, ← h.agree d r k hd']
    simp [hf]

omit [DecidableEq γ] in
/-- A change of the table that no client makes. -/
theorem Agrees.table (h : Agrees kept s) {ht' : HashTable} {kept' : γ → CStr → Prop}
    (hinv : SubInv ht') (hpres : ∀ d k, kept' d k → Present ht' k)
    (hle : ∀ fd k, Subscribed ht' fd k → Subscribed s.ht fd k)
    (hagree : ∀ d r k, s.clients d = some r →
      (Subscribed ht' r.fdNotif k ↔ k ∈ r.subscriptions ∧ kept' d k)) :
    Agrees kept' { s with ht := ht' } where
  inv := hinv
  present := hpres
  owned fd k hk := h.owned fd k (hle fd k hk)
  distinct := h.distinct
  accepted := h.accepted
  agree := hagree

theorem Agrees.subscribe (h : Agrees kept s) {c : γ} {client : Client} {key : CStr} {o : Outcome}
    (hc : s.clients c = some client) (hk : kvsSubscribe s.ht key client .all = .ok o) :
    Agrees (keptAfter s kept (.subscribe c key)) ⟨o.ht, update s.clients c (some o.client)⟩ := by
  rcases kvsSubscribe_spec h.inv hk with ⟨hht, hcl, hr⟩ | ⟨he, hfd, hr, hlist⟩
  · -- a refused key is in no client's list, so that it was in the table does not matter
    have hno : ∀ k, k ∈ client.subscriptions → k ≠ key := by
      rintro k hm rfl
      have := h.accepted c client k hc hm
      simp [this] at hr
    rw [hht, hcl]
    refine h.replace hc rfl h.inv (fun d k hd => ?_) (h.accepted c client · hc) (fun k => ?_)
      (fun _ _ _ => Iff.rfl) fun d k hd => by simp [keptAfter, hd]
    · rcases hd with hd | ⟨-, rfl, hp⟩
      · exact h.present d k hd
      · exact hp
    · rw [h.agree c client k hc]
      have := hno k
      simp only [keptAfter]
      tauto
  · refine h.replace hc hfd he.inv (fun d k hd => ?_) (fun k hm => ?_) (fun k => ?_)
      (fun fd k hf => ?_) fun d k hd => by simp [keptAfter, hd]
    · rw [he.present_same]
      rcases hd with hd | ⟨-, rfl, hp⟩
      · exact h.present d k hd
      · exact hp
    · rcases (hlist k).mp hm with hm | ⟨rfl, -⟩
      · exact h.accepted c client k hc hm
      · exact hr
    · have hagree := h.agree c client k hc
      have hstay := h.present c k
      by_cases hkey : k = key
      · subst hkey
        rw [he.self, hlist]
        simp only [keptAfter]
        tauto
      · rw [he.others _ k hkey, hlist, hagree]
        simp [keptAfter, hkey]
    · by_cases hkey : k = key
      · subst hkey
        rw [he.self]
        simp [hf]
      · exact he.others fd k hkey

theorem Agrees.unsubscribe (h : Agrees kept s) {c : γ} {client : Client} {key : CStr} {o : Outcome}
    {luck : Luck} (hc : s.clients c = some client)
    (hk : kvsUnsubscribe s.ht key client luck = .ok o) :
    Agrees kept ⟨o.ht, update s.clients c (some o.client)⟩ := by
  rcases kvsUnsubscribe_spec h.inv hk with ⟨hht, hcl, -⟩ | ⟨he, hfd, hlist⟩
  · rw [hht, hcl, ← hc, update_eq_self]
    exact h
  · refine h.replace hc hfd he.inv (fun d k hd => ?_) (fun k hm => ?_) (fun k => ?_)
      (fun fd k hf => ?_) fun _ _ _ => Iff.rfl
    · exact (he.present_same k).mpr (h.present d k hd)
    · exact h.accepted c client k hc ((hlist k).mp hm).1
    · by_cases hkey : k = key
      · subst hkey
        rw [he.self, hlist]
        simp
      · rw [he.others _ k hkey, hlist, h.agree c client k hc]
        simp [hkey]
    · by_cases hkey : k = key
      · subst hkey
        rw [he.self]
        simp [hf]
      · exact he.others fd k hkey

omit [DecidableEq γ] in
theorem Agrees.writePair (h : Agrees kept s) {key value : CStr} {ht' : HashTable} {status : ℤ}
    {sent : List Message} (hk : Store.writePair s.ht key value .ok = .ok (ht', status, sent)) :
    Agrees kept { s with ht := ht' } := by
  obtain ⟨b, hb⟩ := bucketOf_of_writePair hk
  rw [writePair_eq hb] at hk
  obtain ⟨rfl, -⟩ := Prod.mk.inj (Except.ok.inj hk)
  have he := effect_writeChain h.inv hb value .ok
  have hsub : ∀ fd k, Subscribed (update s.ht b (writeChain (s.ht b) key value .ok).chain) fd k ↔
      Subscribed s.ht fd k := by
    intro fd k
    by_cases hkey : k = key
    · subst hkey; exact he.self fd
    · exact he.others fd k hkey
  refine h.table he.inv (fun d k hd => ?_) (fun fd k => (hsub fd k).mp) fun d r k hd => ?_
  · by_cases hkey : k = key
    · subst hkey; exact he.present.mpr (.inr rfl)
    · exact (he.presentOthers k hkey).mpr (h.present d k hd)
  · rw [hsub, h.agree d r k hd]

omit [DecidableEq γ] in
theorem Agrees.deletePair (h : Agrees kept s) {key : CStr} {ht' : HashTable} {status : ℤ}
    {sent : List Message} (hk : Store.deletePair s.ht key = .ok (ht', status, sent)) :
    Agrees (keptAfter s kept (.deletePair key)) { s with ht := ht' } := by
  obtain ⟨b, hb⟩ := bucketOf_of_deletePair hk
  rw [deletePair_eq hb] at hk
  obtain ⟨rfl, -⟩ := Prod.mk.inj (Except.ok.inj hk)
  have he := effect_deleteChain h.inv hb
  refine h.table he.inv (fun d k hd => ?_) (he.fewer fun _ hs => hs.elim) fun d r k hd => ?_
  · exact (he.presentOthers k hd.2).mpr (h.present d k hd.1)
  · by_cases hkey : k = key
    · subst hkey
      rw [he.self]
      simp [keptAfter]
    · rw [he.others _ k hkey, h.agree d r k hd]
      simp [keptAfter, hkey]

theorem Agrees.step (h : Agrees kept s) (hs : Step s op t) : Agrees (keptAfter s kept op) t := by
  cases hs with
  | connect hc hl hfd => exact h.connect hc hl hfd
  | subscribe hc hk => exact h.subscribe hc hk
  | unsubscribe hc hk => exact h.unsubscribe hc hk
  | @disconnect c client closed o hc hk =>
    obtain ⟨ht', hw, hk⟩ := ok_of_bind hk
    obtain rfl := Except.ok.inj hk
    exact h.disconnect hc hw
  | writePair hk => exact h.writePair hk
  | deletePair hk => exact h.deletePair hk

end Steps

/-! ### Runs -/

theorem Step.deterministic {s t u : State γ} {op : Op γ} (h : Step s op t) (h' : Step s op u) :
    t = u := by
  cases h with
  | connect => cases h'; rfl
  | subscribe hc hk =>
    cases h' with
    | subscribe hc' hk' =>
      obtain rfl := Option.some.inj (hc.symm.trans hc')
      rw [Except.ok.inj (hk.symm.trans hk')]
  | unsubscribe hc hk =>
    cases h' with
    | unsubscribe hc' hk' =>
      obtain rfl := Option.some.inj (hc.symm.trans hc')
      rw [Except.ok.inj (hk.symm.trans hk')]
  | disconnect hc hk =>
    cases h' with
    | disconnect hc' hk' =>
      obtain rfl := Option.some.inj (hc.symm.trans hc')
      rw [Except.ok.inj (hk.symm.trans hk')]
  | writePair hk =>
    cases h' with
    | writePair hk' =>
      obtain ⟨rfl, -⟩ := Prod.mk.inj (Except.ok.inj (hk.symm.trans hk'))
      rfl
  | deletePair hk =>
    cases h' with
    | deletePair hk' =>
      obtain ⟨rfl, -⟩ := Prod.mk.inj (Except.ok.inj (hk.symm.trans hk'))
      rfl

/-- The keys that have stayed after one more operation. -/
theorem kept_snoc {ops : List (Op γ)} {op : Op γ} {s : State γ}
    (hrun : Run Step State.initial ops s) (d : γ) (k : CStr) :
    Kept (ops ++ [op]) d k ↔ keptAfter s (Kept ops) op d k := by
  constructor
  · rintro ⟨before, after, u, heq, hu, hp, hdel⟩
    rcases List.eq_nil_or_concat after with rfl | ⟨after, x, rfl⟩
    · obtain ⟨rfl, hx⟩ := List.append_inj' heq rfl
      obtain rfl := List.head_eq_of_cons_eq hx
      have hdet : ∀ (u : State γ) o v w, Step u o v → Step u o w → v = w :=
        fun _ _ _ _ h h' => h.deterministic h'
      obtain rfl := hrun.deterministic hdet hu
      exact .inr ⟨rfl, rfl, hp⟩
    · rw [List.concat_eq_append, ← List.cons_append, ← List.append_assoc] at heq
      obtain ⟨rfl, hx⟩ := List.append_inj' heq rfl
      obtain rfl := List.head_eq_of_cons_eq hx
      have hk : Kept (before ++ .subscribe d k :: after) d k :=
        ⟨before, after, u, rfl, hu, hp, fun hm => hdel (by simp [hm])⟩
      cases op with
      | subscribe c key => exact .inl hk
      | deletePair key =>
        refine ⟨hk, ?_⟩
        rintro rfl
        exact hdel (by simp)
      | connect | unsubscribe | disconnect | writePair => exact hk
  · -- what has stayed stays, unless the operation deletes the key
    have hstay : Kept ops d k → op ≠ .deletePair k → Kept (ops ++ [op]) d k := by
      rintro ⟨before, after, u, rfl, hu, hp, hdel⟩ hne
      exact ⟨before, after ++ [op], u, by simp, hu, hp, by simpa [hdel] using Ne.symm hne⟩
    intro hk
    cases op with
    | subscribe c key =>
      rcases hk with hk | ⟨rfl, rfl, hp⟩
      · exact hstay hk (by simp)
      · exact ⟨ops, [], s, rfl, hrun, hp, by simp⟩
    | deletePair key => exact hstay hk.1 (by simpa using Ne.symm hk.2)
    | connect | unsubscribe | disconnect | writePair => exact hstay hk (by simp)

theorem agrees_of_run {ops : List (Op γ)} {s : State γ} (hrun : Run Step State.initial ops s) :
    Agrees (Kept ops) s := by
  induction hrun with
  | nil =>
    have h : (Kept [] : γ → CStr → Prop) = fun _ _ => False := by
      funext c k
      simp [Kept]
    rw [h]
    exact agrees_initial
  | @snoc ops s t op hrun hs ih =>
    have h : Kept (ops ++ [op]) = keptAfter s (Kept ops) op := by
      funext d k
      exact propext (kept_snoc hrun d k)
    rw [h]
    exact ih.step hs

/-- After any sequence of calls, a connected client is in the subscriber list of a key
of the table exactly when the key is in its own list and has been kept. -/
theorem records_agree {ops : List (Op γ)} {s : State γ} (hrun : Run Step State.initial ops s)
    {c : γ} {client : Client} (hc : s.clients c = some client) (key : CStr) :
    Present s.ht key ∧ Subscribed s.ht client.fdNotif key ↔
      key ∈ client.subscriptions ∧ Kept ops c key := by
  rw [← (agrees_of_run hrun).agree c client key hc]
  exact and_iff_right_of_imp Subscribed.present

/-- One client subscribes to a key of the table, and the key is deleted. -/
def deletedKey : List (Op Unit) :=
  let k : CStr := ⟨chars ['k'], by decide⟩
  [.connect () ⟨3, 4, 5, []⟩, .writePair k k, .subscribe () k, .deletePair k]

theorem run_deletedKey : ∃ s : State Unit, Run Step State.initial deletedKey s ∧
    s.clients () = some ⟨3, 4, 5, [⟨chars ['k'], by decide⟩]⟩ ∧
    ¬ Present s.ht ⟨chars ['k'], by decide⟩ := by
  let k : CStr := ⟨chars ['k'], by decide⟩
  have hb : bucketOf k = .ok ⟨10, by decide⟩ := by decide
  have h₁ : Step (State.initial : State Unit) (.connect () ⟨3, 4, 5, []⟩) _ :=
    .connect rfl rfl (by rintro _ _ ⟨⟩)
  have h₂ := (Run.single h₁).snoc (.writePair (writePair_eq hb k .ok))
  have h₃ := h₂.snoc (.subscribe (c := ()) rfl (kvsSubscribe_eq (by decide) hb))
  have h₄ := h₃.snoc (.deletePair (deletePair_eq hb))
  exact ⟨_, h₄, rfl, by decide⟩

/-- A deletion leaves the key in the client's list. -/
theorem not_records_agree : ¬ ∀ (ops : List (Op Unit)) (s : State Unit) (client : Client)
    (key : CStr), Run Step State.initial ops s → s.clients () = some client →
      (key ∈ client.subscriptions ↔ Present s.ht key ∧ Subscribed s.ht client.fdNotif key) := by
  intro h
  obtain ⟨s, hrun, hc, hp⟩ := run_deletedKey
  exact hp ((h _ s _ ⟨chars ['k'], by decide⟩ hrun hc).mp List.mem_cons_self).1

theorem records_agree_deletedKey : ∃ s : State Unit, Run Step State.initial deletedKey s ∧
    (Present s.ht ⟨chars ['k'], by decide⟩ ∧ Subscribed s.ht 5 ⟨chars ['k'], by decide⟩ ↔
      (⟨chars ['k'], by decide⟩ : CStr) ∈ [⟨chars ['k'], by decide⟩] ∧
        Kept deletedKey () ⟨chars ['k'], by decide⟩) := by
  obtain ⟨s, hrun, hc, -⟩ := run_deletedKey
  exact ⟨s, hrun, records_agree hrun hc ⟨chars ['k'], by decide⟩⟩

end IstKvs.Sessions

import IstKvs.Server.Locks
import IstKvs.Server.Refinement

/-! The subscriber lists under the interleaving of all threads. Every entry of a list
belongs to the open notification pipe of a session, and its key is in the list of that
session's client or in the hands of a thread that is between the two lists. A teardown
takes the keys from the client's list, so none of its entries is left when it closes the
pipe. -/

namespace IstKvs.Server

open IstKvs.Store IstKvs.Sessions IstKvs.Systems Function

variable {τ : Type*} {n : ℕ}

/-! ### What a stage says about the lists -/

/-- The key that is or may be in a subscriber list and not in the client's list, the keys
that a teardown has still to visit, the key that is being subscribed to, the key just
unsubscribed from, and the descriptors to be notified. -/
structure Track where
  flight : Option (Sid × CStr) := none
  remaining : Option (Sid × List CStr) := none
  issuing : Option (Sid × CStr) := none
  gone : Option (Sid × CStr) := none
  pending : List (Fd × CStr) := []

def Stage.track : Stage → Track
  | .notifying u fds _ _ _ => { pending := fds.map fun fd => (fd, u.key.str) }
  | .subscribe sid key | .subscribeFind sid key => { issuing := some (sid, key.str) }
  | .subscribeUnlock sid key true | .record sid key | .unsubscribe sid key
  | .unsubscribeFind sid key => { flight := some (sid, key.str) }
  | .unsubscribeUnlock sid key | .answer sid (.unsubscribed key) =>
    { gone := some (sid, key.str) }
  | .walk sid rest | .walkUnlock sid _ rest => { remaining := some (sid, rest) }
  | .walkFind sid key rest => { remaining := some (sid, key.str :: rest) }
  | .clear sid | .close sid _ | .replyDisconnect sid | .remove sid =>
    { remaining := some (sid, []) }
  | _ => {}

/-- A subscriber list has the notification pipe of the session. -/
def Entry (s : State τ n) (sid : Sid) (key : CStr) : Prop :=
  ∃ fd, s.files fd = some (.pipe sid .notif) ∧ Subscribed s.ht fd key

structure Tracked (s : State τ n) : Prop where
  sub : SubInv s.ht
  owned : ∀ fd key, Subscribed s.ht fd key → ∃ sid, s.files fd = some (.pipe sid .notif)
  listed : ∀ sid key, Entry s sid key →
    key ∈ (s.client sid).subscriptions ∨ ∃ a, (s.stage a).track.flight = some (sid, key)
  remaining : ∀ a sid l key, (s.stage a).track.remaining = some (sid, l) → Entry s sid key →
    key ∈ l
  requested : ∀ sid key, Entry s sid key → key ∈ s.requested sid
  issuing : ∀ a sid key, (s.stage a).track.issuing = some (sid, key) → key ∈ s.requested sid
  gone : ∀ a sid key, (s.stage a).track.gone = some (sid, key) → ¬ Entry s sid key
  pending : ∀ a fd key, (fd, key) ∈ (s.stage a).track.pending → Subscribed s.ht fd key

theorem tracked_initial : Tracked (State.initial : State τ n) where
  sub := subInv_create
  owned fd key h := absurd h (not_subscribed_create fd key)
  listed sid key h := by obtain ⟨fd, hf, -⟩ := h; cases hf
  remaining a sid l key h := by cases a <;> cases h
  requested sid key h := by obtain ⟨fd, hf, -⟩ := h; cases hf
  issuing a sid key h := by cases a <;> cases h
  gone a sid key h := by cases a <;> cases h
  pending a fd key h := by cases a <;> cases h

section
variable {st : Stage} {sid : Sid} {key : CStr} {l : List CStr}

theorem phase_of_flight (h : st.track.flight = some (sid, key)) : st.phase = .serving sid := by
  cases st
  case subscribeUnlock sid' key' added => cases added <;> cases h; rfl
  case answer sid' what => cases what <;> cases h
  all_goals first | (cases h; rfl) | cases h

theorem phase_of_issuing (h : st.track.issuing = some (sid, key)) : st.phase = .serving sid := by
  cases st
  case subscribeUnlock sid' key' added => cases added <;> cases h
  case answer sid' what => cases what <;> cases h
  all_goals first | (cases h; rfl) | cases h

theorem phase_of_gone (h : st.track.gone = some (sid, key)) : st.phase = .serving sid := by
  cases st
  case subscribeUnlock sid' key' added => cases added <;> cases h
  case answer sid' what => cases what <;> cases h; rfl
  all_goals first | (cases h; rfl) | cases h

theorem phase_of_remaining (h : st.track.remaining = some (sid, l)) :
    ∃ todo, st.phase = .tearing sid todo := by
  cases st
  case subscribeUnlock sid' key' added => cases added <;> cases h
  case answer sid' what => cases what <;> cases h
  case close sid' kind => cases kind <;> cases h <;> exact ⟨_, rfl⟩
  all_goals first | (cases h; exact ⟨_, rfl⟩) | cases h

theorem notifying_of_pending {fd : Fd} (h : (fd, key) ∈ st.track.pending) :
    ∃ u fds b work acq, st = .notifying u fds b work acq ∧ fd ∈ fds ∧ u.key.str = key := by
  cases st
  case notifying u fds b work acq =>
    obtain ⟨fd', hfd, he⟩ := List.mem_map.mp h
    cases he
    exact ⟨u, fds, b, work, acq, rfl, hfd, rfl⟩
  case subscribeUnlock sid' key' added => cases added <;> cases h
  case answer sid' what => cases what <;> cases h
  all_goals cases h

end

/-- Only one thread serves a session, or has begun to tear it down. -/
theorem Living.sole {s : State τ n} (h : Living s) {a b : Actor τ n} {sid : Sid}
    (ha : (s.stage a).phase.session = some sid) (hb : (s.stage b).phase.session = some sid)
    (hpa : (s.stage a).phase ≠ .parked sid) (hpb : (s.stage b).phase ≠ .parked sid) : b = a := by
  cases hc : s.cleaned sid with
  | false => exact h.life.one b a sid hb ha hc
  | true =>
    have ha' := (h.life.aside a sid ha hc).resolve_right hpa
    have hb' := (h.life.aside b sid hb hc).resolve_right hpb
    rw [ha', hb']

theorem Living.open_of_serving {s : State τ n} (h : Living s) {i : Fin n} {sid : Sid}
    (hp : (s.stage (.client i)).phase = .serving sid) (kind : Kind) :
    s.files (fdOf (s.client sid) kind) = some (.pipe sid kind) := by
  have hs : (s.life.phase (.client i)).session = some sid := by
    rw [life_phase rfl, hp]
    rfl
  have hcharge : s.life.cleaned sid = true → (.client i : Actor τ n) = .host := by
    intro hc
    refine (h.life.aside (.client i) sid hs hc).resolve_right ?_
    rw [life_phase rfl, hp]
    exact nofun
  have hopen := h.life.pipes (.client i) sid kind ⟨hs, hcharge⟩
  rwa [life_phase rfl, hp] at hopen

/-! ### Steps -/

namespace Tracked

variable [DecidableEq τ] {s t u : State τ n} {a : Actor τ n} {st : Stage}

theorem goto (h : Tracked s) (hu : u.stage = s.stage) (hsub : SubInv u.ht)
    (howned : ∀ fd key, Subscribed u.ht fd key → ∃ sid, u.files fd = some (.pipe sid .notif))
    (hentry : ∀ sid key, Entry u sid key → Entry s sid key)
    (hlisted : ∀ sid key, Entry u sid key → key ∈ (s.client sid).subscriptions ∨
      (s.stage a).track.flight = some (sid, key) →
        key ∈ (u.client sid).subscriptions ∨ st.track.flight = some (sid, key))
    (hremaining : ∀ sid l key, st.track.remaining = some (sid, l) → Entry u sid key → key ∈ l)
    (hrequested : ∀ sid key, Entry u sid key → key ∈ u.requested sid)
    (hissuing : ∀ b sid key, (if b = a then st else s.stage b).track.issuing = some (sid, key) →
      key ∈ u.requested sid)
    (hgone : ∀ sid key, st.track.gone = some (sid, key) → ¬ Entry u sid key)
    (hpending : ∀ b fd key, (fd, key) ∈ (if b = a then st else s.stage b).track.pending →
      Subscribed u.ht fd key) : Tracked (u.goto a st) := by
  have hstage : ∀ b, (u.goto a st).stage b = if b = a then st else s.stage b := by
    intro b
    rw [stage_goto, hu]
  refine ⟨hsub, howned, fun sid key he => ?_, fun b sid l key hb he => ?_, hrequested,
    fun b sid key hb => ?_, fun b sid key hb => ?_, fun b fd key hb => ?_⟩
  · -- the thread with the key in its hands is another one, or `a`
    have hold : key ∈ (s.client sid).subscriptions ∨ (s.stage a).track.flight = some (sid, key) →
        key ∈ (u.client sid).subscriptions ∨
          ∃ b, ((u.goto a st).stage b).track.flight = some (sid, key) := by
      intro hk
      exact (hlisted sid key he hk).imp_right fun hf => ⟨a, by rwa [hstage, if_pos rfl]⟩
    rcases h.listed sid key (hentry sid key he) with hk | ⟨b, hb⟩
    · exact hold (.inl hk)
    · by_cases hba : b = a
      · subst hba; exact hold (.inr hb)
      · exact .inr ⟨b, by rwa [hstage, if_neg hba]⟩
  · rw [hstage] at hb
    split_ifs at hb
    · exact hremaining sid l key hb he
    · exact h.remaining b sid l key hb (hentry sid key he)
  · rw [hstage] at hb
    exact hissuing b sid key hb
  · rw [hstage] at hb
    split_ifs at hb
    · exact hgone sid key hb
    · exact fun he => h.gone b sid key hb (hentry sid key he)
  · rw [hstage] at hb
    exact hpending b fd key hb

/-- A step that leaves the table, the files and the requested keys alone. -/
theorem hold (h : Tracked s) (hu : u.stage = s.stage) (hht : u.ht = s.ht)
    (hfiles : u.files = s.files) (hreq : u.requested = s.requested)
    (hlisted : ∀ sid key, Entry s sid key → key ∈ (s.client sid).subscriptions ∨
      (s.stage a).track.flight = some (sid, key) →
        key ∈ (u.client sid).subscriptions ∨ st.track.flight = some (sid, key))
    (hremaining : ∀ sid l key, st.track.remaining = some (sid, l) → Entry s sid key → key ∈ l)
    (hissuing : ∀ sid key, st.track.issuing = some (sid, key) → key ∈ s.requested sid)
    (hgone : ∀ sid key, st.track.gone = some (sid, key) → ¬ Entry s sid key)
    (hpending : ∀ fd key, (fd, key) ∈ st.track.pending → Subscribed s.ht fd key) :
    Tracked (u.goto a st) := by
  have hE : ∀ sid key, Entry u sid key ↔ Entry s sid key := by
    intro sid key
    rw [Entry, Entry, hht, hfiles]
  refine h.goto hu (by rw [hht]; exact h.sub) (by rw [hht, hfiles]; exact h.owned)
    (fun sid key => (hE sid key).mp) (fun sid key he => hlisted sid key ((hE sid key).mp he))
    (fun sid l key hr he => hremaining sid l key hr ((hE sid key).mp he))
    (fun sid key he => ?_) (fun b sid key hb => ?_)
    (fun sid key hg he => hgone sid key hg ((hE sid key).mp he)) (fun b fd key hb => ?_)
  · rw [hreq]; exact h.requested sid key ((hE sid key).mp he)
  · rw [hreq]
    split_ifs at hb
    · exact hissuing sid key hb
    · exact h.issuing b sid key hb
  · rw [hht]
    split_ifs at hb
    · exact hpending fd key hb
    · exact h.pending b fd key hb

theorem same (h : Tracked s) (hu : u.stage = s.stage) (hht : u.ht = s.ht)
    (hfiles : u.files = s.files) (hreq : u.requested = s.requested)
    (hclient : ∀ sid, (u.client sid).subscriptions = (s.client sid).subscriptions)
    (htrack : st.track = (s.stage a).track) : Tracked (u.goto a st) :=
  h.hold hu hht hfiles hreq (fun sid key _ hk => by rwa [hclient, htrack])
    (fun sid l key hr => h.remaining a sid l key (by rwa [← htrack]))
    (fun sid key hi => h.issuing a sid key (by rwa [← htrack]))
    (fun sid key hg => h.gone a sid key (by rwa [← htrack]))
    fun fd key hp => h.pending a fd key (by rwa [← htrack])

theorem rest (h : Tracked s) (hu : u.stage = s.stage) (hht : u.ht = s.ht)
    (hfiles : u.files = s.files) (hreq : u.requested = s.requested)
    (hclient : ∀ sid, (u.client sid).subscriptions = (s.client sid).subscriptions)
    (hflight : (s.stage a).track.flight = none) (htrack : st.track = {}) :
    Tracked (u.goto a st) :=
  h.hold hu hht hfiles hreq
    (fun sid key _ hk => by rw [hflight] at hk; rw [hclient]; exact hk.imp_right nofun)
    (by rw [htrack]; exact nofun) (by rw [htrack]; exact nofun) (by rw [htrack]; exact nofun)
    (by rw [htrack]; exact nofun)

omit [DecidableEq τ] in
/-- A change of one key's list under its lock keeps what other threads are to notify. -/
theorem pending_of_effect (h : Tracked s) (hl : Locked s) {key : Key} {ht' : HashTable}
    {P : Fd → Prop} {Q : Prop} (ha : key.index ∈ (s.stage a).held)
    (he : Effect s.ht ht' key.str P Q) {b : Actor τ n} (hb : b ≠ a) {fd : Fd} {k : CStr}
    (hp : (fd, k) ∈ (s.stage b).track.pending) : Subscribed ht' fd k := by
  have hs := h.pending b fd k hp
  by_cases hk : k = key.str
  · obtain ⟨v, fds, sent, work, acq, hst, -, hv⟩ := notifying_of_pending hp
    have hcov := hl.covered b
    rw [hst] at hcov
    have hheld : key.index ∈ (s.stage b).held := by
      rw [hst, ← Key.index_eq (hv.trans hk)]
      exact hcov.1
    exact absurd (hl.unique ha hheld) hb
  · exact (he.others fd k hk).mpr hs

omit [DecidableEq τ] in
theorem entry_of_effect {key : CStr} {P : Fd → Prop} {Q : Prop} (hfiles : u.files = s.files)
    (he : Effect s.ht u.ht key P Q) {sid : Sid} {k : CStr} (hE : Entry u sid k) :
    ∃ fd, s.files fd = some (.pipe sid .notif) ∧ ((k ≠ key ∧ Subscribed s.ht fd k) ∨
      (k = key ∧ P fd)) := by
  obtain ⟨fd, hfd, hs⟩ := hE
  rw [hfiles] at hfd
  refine ⟨fd, hfd, ?_⟩
  by_cases hk : k = key
  · subst hk; exact .inr ⟨rfl, (he.self fd).mp hs⟩
  · exact .inl ⟨hk, (he.others fd k hk).mp hs⟩

theorem table (h : Tracked s) (hl : Locked s) (key : Key) {P : Fd → Prop} {Q : Prop}
    (ha : key.index ∈ (s.stage a).held) (hu : u.stage = s.stage) (hfiles : u.files = s.files)
    (hreq : u.requested = s.requested) (hclient : u.client = s.client)
    (he : Effect s.ht u.ht key.str P Q) (hP : ∀ fd, P fd → Subscribed s.ht fd key.str)
    (hlisted : ∀ sid k, (s.stage a).track.flight = some (sid, k) → ¬ Entry u sid k)
    (hremaining : ∀ sid l k, st.track.remaining = some (sid, l) → Entry u sid k → k ∈ l)
    (hissuing : st.track.issuing = none)
    (hgone : ∀ sid k, st.track.gone = some (sid, k) → ¬ Entry u sid k)
    (hpending : ∀ fd k, (fd, k) ∈ st.track.pending → Subscribed u.ht fd k) :
    Tracked (u.goto a st) := by
  have hold : ∀ fd k, Subscribed u.ht fd k → Subscribed s.ht fd k := by
    intro fd k hs
    by_cases hk : k = key.str
    · subst hk; exact hP fd ((he.self fd).mp hs)
    · exact (he.others fd k hk).mp hs
  have hentry : ∀ sid k, Entry u sid k → Entry s sid k := by
    rintro sid k ⟨fd, hfd, hs⟩
    exact ⟨fd, by rwa [← hfiles], hold fd k hs⟩
  refine h.goto hu he.inv (fun fd k hs => by rw [hfiles]; exact h.owned fd k (hold fd k hs)) hentry
    (fun sid k hE hk => ?_) hremaining (fun sid k hE => ?_) (fun b sid k hb => ?_) hgone
    fun b fd k hb => ?_
  · rw [hclient]
    exact .inl (hk.resolve_right fun hf => hlisted sid k hf hE)
  · rw [hreq]; exact h.requested sid k (hentry sid k hE)
  · rw [hreq]
    split_ifs at hb
    · rw [hissuing] at hb; cases hb
    · exact h.issuing b sid k hb
  · split_ifs at hb with hba
    · exact hpending fd k hb
    · exact h.pending_of_effect hl ha he hba hb

omit [DecidableEq τ] in
/-- After `remove_subscriber` the session has no entry for the key. -/
theorem not_entry_unsubscribed (h : Tracked s) (hv : Living s) (sid : Sid) (key : Key)
    (hfiles : u.files = s.files) (hht : u.ht = Function.update s.ht key.index
      (unsubscribeChain (s.ht key.index) key.str (s.client sid).fdNotif).1) :
    Effect s.ht u.ht key.str (fun g => Subscribed s.ht g key.str ∧ g ≠ (s.client sid).fdNotif)
      (Present s.ht key.str) ∧ ¬ Entry u sid key.str := by
  have he := effect_unsubscribeChain h.sub key.located (s.client sid).fdNotif
  rw [← hht] at he
  refine ⟨he, fun hE => ?_⟩
  obtain ⟨fd, hfd, ⟨hk, -⟩ | ⟨-, -, hne⟩⟩ := entry_of_effect hfiles he hE
  · exact hk rfl
  · exact hne (hv.life.named fd sid .notif hfd)

omit [DecidableEq τ] in
/-- After a subscription to a key an entry was there before, or it is that of the session and
the key, which the subscription may have made. -/
theorem entry_of_subscribe (h : Tracked s) {sid : Sid} {key : Key}
    (hopen : s.files (s.client sid).fdNotif = some (.pipe sid .notif)) (mem : Bool) {sid' : Sid}
    {k : CStr}
    (hE : Entry (s.setChain key.index
      (subscribeChain (s.ht key.index) key.str (s.client sid).fdNotif mem).chain) sid' k) :
    Entry s sid' k ∨ (sid' = sid ∧ k = key.str ∧
      (Subscribed s.ht (s.client sid).fdNotif key.str ∨
        (subscribeChain (s.ht key.index) key.str (s.client sid).fdNotif mem).subscriptionStatus =
          0)) := by
  have he := effect_subscribeChain h.sub key.located (s.client sid).fdNotif mem
  have hstatus := (subscribeChain_found s.ht key.located (s.client sid).fdNotif mem).2
  obtain ⟨fd, hfd, ⟨-, hs⟩ | ⟨rfl, hs | ⟨rfl, hpres, hmem⟩⟩⟩ :=
    entry_of_effect (s := s) (u := s.setChain key.index _) rfl he hE
  · exact .inl ⟨fd, hfd, hs⟩
  · exact .inl ⟨fd, hfd, hs⟩
  · rw [hopen] at hfd
    cases hfd
    refine .inr ⟨rfl, rfl, ?_⟩
    by_cases hs : Subscribed s.ht (s.client sid).fdNotif key.str
    · exact .inl hs
    · exact .inr (hstatus.mpr ⟨hs, .inl hmem⟩)

theorem subscribeFind (h : Tracked s) (hl : Locked s) (hv : Living s) {i : Fin n} {sid : Sid}
    {key : Key} (hst : s.stage (.client i) = .subscribeFind sid key) (mem : Bool) :
    Tracked ((s.setChain key.index
      (subscribeChain (s.ht key.index) key.str (s.client sid).fdNotif mem).chain).goto (.client i)
        (.subscribeUnlock sid key ((subscribeChain (s.ht key.index) key.str
          (s.client sid).fdNotif mem).subscriptionStatus = 0))) := by
  have hphase : (s.stage (.client i)).phase = .serving sid := by rw [hst]; rfl
  have hopen : s.files (s.client sid).fdNotif = some (.pipe sid .notif) :=
    hv.open_of_serving hphase .notif
  have he := effect_subscribeChain h.sub key.located (s.client sid).fdNotif mem
  have hentry : ∀ {sid' : Sid} {k : CStr}, Entry (s.setChain key.index _) sid' k → _ :=
    fun hE => h.entry_of_subscribe hopen mem hE
  generalize subscribeChain (s.ht key.index) key.str (s.client sid).fdNotif mem = r at he hentry ⊢
  have hheld : key.index ∈ (s.stage (.client i)).held := by
    rw [hst]
    exact List.mem_singleton_self _
  have hstage : ∀ b, ((s.setChain key.index r.chain).goto (.client i)
      (.subscribeUnlock sid key (r.subscriptionStatus = 0))).stage b =
        if b = .client i then .subscribeUnlock sid key (r.subscriptionStatus = 0)
        else s.stage b := fun b => stage_goto ..
  -- no other thread is tearing the session down or unsubscribing it
  have hsole : ∀ b, b ≠ .client i → (s.stage b).phase ≠ .parked sid →
      (s.stage b).phase.session ≠ some sid := by
    intro b hb hpb hs
    exact hb (hv.sole (by rw [hphase]; rfl) hs (by rw [hphase]; exact nofun) hpb)
  have hflight : (s.stage (.client i)).track.flight = none := by rw [hst]; rfl
  have htrack : ∀ c : Bool, (Stage.subscribeUnlock sid key c).track.remaining = none ∧
      (Stage.subscribeUnlock sid key c).track.issuing = none ∧
      (Stage.subscribeUnlock sid key c).track.gone = none ∧
      (Stage.subscribeUnlock sid key c).track.pending = [] := by
    intro c
    cases c <;> exact ⟨rfl, rfl, rfl, rfl⟩
  have hkeep : ∀ sid' k, Entry s sid' k → k ∈ (s.client sid').subscriptions ∨
      ∃ b, b ≠ .client i ∧ (s.stage b).track.flight = some (sid', k) := by
    intro sid' k hE
    refine (h.listed sid' k hE).imp_right ?_
    rintro ⟨b, hb⟩
    refine ⟨b, ?_, hb⟩
    rintro rfl
    rw [hflight] at hb
    cases hb
  refine ⟨he.inv, fun fd k hs => ?_, fun sid' k hE => ?_, fun b sid' l k hb hE => ?_,
    fun sid' k hE => ?_, fun b sid' k hb => ?_, fun b sid' k hb hE => ?_, fun b fd k hb => ?_⟩
  · by_cases hk : k = key.str
    · subst hk
      rcases (he.self fd).mp hs with hs | ⟨rfl, -⟩
      · exact h.owned fd _ hs
      · exact ⟨sid, hopen⟩
    · exact h.owned fd k ((he.others fd k hk).mp hs)
  · have hold : Entry s sid' k → k ∈ (s.client sid').subscriptions ∨ ∃ b,
        (((s.setChain key.index r.chain).goto (.client i)
          (.subscribeUnlock sid key (r.subscriptionStatus = 0))).stage b).track.flight =
            some (sid', k) := by
      intro hE
      refine (hkeep sid' k hE).imp_right ?_
      rintro ⟨b, hb, hf⟩
      exact ⟨b, by rwa [hstage, if_neg hb]⟩
    rcases hentry hE with hE | ⟨rfl, rfl, hs | h0⟩
    · exact hold hE
    · exact hold ⟨_, hopen, hs⟩
    · refine .inr ⟨.client i, ?_⟩
      rw [hstage, if_pos rfl, decide_eq_true h0]
      rfl
  · rw [hstage] at hb
    split_ifs at hb with hbi
    · rw [(htrack _).1] at hb; cases hb
    · rcases hentry hE with hE | ⟨rfl, -, -⟩
      · exact h.remaining b sid' l k hb hE
      · obtain ⟨todo, hp⟩ := phase_of_remaining hb
        exact absurd (by rw [hp]; rfl) (hsole b hbi (by rw [hp]; exact nofun))
  · rcases hentry hE with hE | ⟨rfl, rfl, -⟩
    · exact h.requested sid' k hE
    · exact h.issuing (.client i) _ _ (by rw [hst]; rfl)
  · rw [hstage] at hb
    split_ifs at hb
    · rw [(htrack _).2.1] at hb; cases hb
    · exact h.issuing b sid' k hb
  · rw [hstage] at hb
    split_ifs at hb with hbi
    · rw [(htrack _).2.2.1] at hb; cases hb
    · rcases hentry hE with hE | ⟨rfl, -, -⟩
      · exact h.gone b sid' k hb hE
      · have hp := phase_of_gone hb
        exact absurd (by rw [hp]; rfl) (hsole b hbi (by rw [hp]; exact nofun))
  · rw [hstage] at hb
    split_ifs at hb with hbi
    · rw [(htrack _).2.2.2] at hb; cases hb
    · exact h.pending_of_effect hl hheld he hbi hb

/-- A teardown begins with all the keys of the session's entries in its hands. -/
theorem teardown (h : Tracked s) (hu : u.stage = s.stage) (hht : u.ht = s.ht)
    (hfiles : u.files = s.files) (hreq : u.requested = s.requested) (hclient : u.client = s.client)
    (hflight : (s.stage a).track.flight = none) {sid : Sid}
    (hno : ∀ b k, (s.stage b).track.flight ≠ some (sid, k)) :
    Tracked (u.teardown a sid) := by
  refine h.hold hu hht hfiles hreq (fun sid' k _ hk => ?_) (fun sid' l k hr hE => ?_)
    nofun nofun nofun
  · rw [hflight] at hk
    exact .inl (by rw [← hclient] at hk; exact hk.resolve_right nofun)
  · cases hr
    rw [hclient]
    refine (h.listed sid k hE).resolve_right ?_
    rintro ⟨b, hb⟩
    exact hno b k hb

theorem files (h : Tracked s) (hu : u.stage = s.stage) (hht : u.ht = s.ht)
    (hreq : u.requested = s.requested)
    (hclient : ∀ sid, (u.client sid).subscriptions = (s.client sid).subscriptions) (fd : Fd)
    {f : Option File} (hfiles : u.files = update s.files fd f)
    (hfd : ∀ key, ¬ Subscribed s.ht fd key) (htrack : st.track = (s.stage a).track) :
    Tracked (u.goto a st) := by
  have hsame : ∀ g key, Subscribed s.ht g key → u.files g = s.files g := by
    intro g key hs
    rw [hfiles, update_of_ne]
    rintro rfl
    exact hfd key hs
  have hentry : ∀ sid key, Entry u sid key → Entry s sid key := by
    rintro sid key ⟨g, hg, hs⟩
    rw [hht] at hs
    exact ⟨g, by rwa [← hsame g key hs], hs⟩
  refine h.goto hu (by rw [hht]; exact h.sub) (fun g key hs => ?_) hentry
    (fun sid key _ hk => by rwa [hclient, htrack])
    (fun sid l key hr hE => h.remaining a sid l key (by rwa [← htrack]) (hentry sid key hE))
    (fun sid key hE => by rw [hreq]; exact h.requested sid key (hentry sid key hE))
    (fun b sid key hb => ?_)
    (fun sid key hg hE => h.gone a sid key (by rwa [← htrack]) (hentry sid key hE))
    (fun b g key hb => ?_)
  · rw [hht] at hs
    rw [hsame g key hs]
    exact h.owned g key hs
  · rw [hreq]
    split_ifs at hb with hba
    · exact h.issuing a sid key (by rwa [← htrack])
    · exact h.issuing b sid key hb
  · rw [hht]
    split_ifs at hb with hba
    · exact h.pending a g key (by rwa [← htrack])
    · exact h.pending b g key hb

omit [DecidableEq τ] in
/-- A teardown that has visited all keys closes descriptors that are in no list. -/
theorem not_subscribed_close (h : Tracked s) (hv : Living s) {sid : Sid} {kind : Kind}
    {todo : List Kind} (hp : (s.stage a).phase = .tearing sid (kind :: todo))
    (hr : (s.stage a).track.remaining = some (sid, [])) (key : CStr) :
    ¬ Subscribed s.ht (fdOf (s.client sid) kind) key := by
  intro hs
  obtain ⟨sid', hfd⟩ := h.owned _ key hs
  have hsession : (s.life.phase a).session = some sid := by rw [life_phase rfl, hp]; rfl
  have hcharge : s.life.cleaned sid = true → a = .host := by
    intro hc
    refine (hv.life.aside a sid hsession hc).resolve_right ?_
    rw [life_phase rfl, hp]
    rintro ⟨⟩
  have hown := hv.life.pipes a sid kind ⟨hsession, hcharge⟩
  rw [life_phase rfl, hp] at hown
  simp only [Phase.pipe, List.mem_cons_self, if_true] at hown
  rcases hown with hneg | hown
  · have hle := hv.life.nonneg (fdOf (s.client sid) kind) (by
      show s.files _ ≠ none
      rw [hfd]
      rintro ⟨⟩)
    rw [show fdOf (s.client sid) kind = -1 from hneg] at hle
    exact absurd hle (by decide)
  · have he : some (File.pipe sid' .notif) = some (.pipe sid kind) := hfd.symm.trans hown
    cases he
    exact absurd (h.remaining a sid [] key hr ⟨_, hfd, hs⟩) (by simp)

theorem lock (h : Tracked s) {b : Bucket} (hu : s.lock a b = some u)
    (htrack : st.track = (s.stage a).track) : Tracked (u.goto a st) := by
  obtain ⟨-, rfl⟩ := lock_eq hu
  exact h.same rfl rfl rfl rfl (fun _ => rfl) htrack

omit [DecidableEq τ] in
theorem setSubscriptions_subscriptions (s : State τ n) (sid sid' : Sid) (keys : List CStr) :
    ((s.setSubscriptions sid keys).client sid').subscriptions =
      if sid' = sid then keys else (s.client sid').subscriptions := by
  simp only [State.setSubscriptions, update_apply]
  split_ifs with hs <;> rfl

theorem teardownStep (h : Tracked s) (hl : Locked s) (hv : Living s)
    (hs : teardownStep s a = some t) : Tracked t := by
  cases hst : s.stage a <;> simp only [Server.teardownStep, hst, reduceCtorEq] at hs
  case walk sid rest =>
    cases rest with
    | nil => cases hs; exact h.same rfl rfl rfl rfl (fun _ => rfl) (by rw [hst]; rfl)
    | cons k rest =>
      obtain ⟨key, hkey, hs⟩ := Option.bind_eq_some_iff.mp hs
      obtain ⟨u, hu, rfl⟩ := Option.map_eq_some_iff.mp hs
      refine h.lock hu ?_
      rw [hst, ← Key.str_of? hkey]
      rfl
  case walkFind sid key rest =>
    cases hs
    obtain ⟨he, hgone⟩ := h.not_entry_unsubscribed hv (u := s.setChain key.index
      (unsubscribeChain (s.ht key.index) key.str (s.client sid).fdNotif).1) sid key rfl rfl
    refine h.table hl key (by rw [hst]; exact List.mem_singleton_self _) rfl rfl rfl rfl he
      (fun fd hfd => hfd.1) (by rw [hst]; intros; contradiction) (fun sid' l k hr hE => ?_) rfl
      (by intros; contradiction) (by intros; contradiction)
    cases hr
    obtain ⟨fd, hfd, hk⟩ := entry_of_effect (s := s) (u := s.setChain key.index
      (unsubscribeChain (s.ht key.index) key.str (s.client sid).fdNotif).1) rfl he hE
    rcases hk with ⟨hk, hs⟩ | ⟨rfl, -⟩
    · have hmem := h.remaining a sid (key.str :: rest) k (by rw [hst]; rfl) ⟨fd, hfd, hs⟩
      exact (List.mem_cons.mp hmem).resolve_left hk
    · exact absurd hE hgone
  case walkUnlock sid key rest =>
    cases hs
    exact h.same rfl rfl rfl rfl (fun _ => rfl) (by rw [hst]; rfl)
  case clear sid =>
    cases hs
    have hr : (s.stage a).track.remaining = some (sid, []) := by rw [hst]; rfl
    refine h.hold rfl rfl rfl rfl (fun sid' k hE hk => ?_) (fun sid' l k hr' hE => ?_)
      (by intros; contradiction) (by intros; contradiction) (by intros; contradiction)
    · rw [setSubscriptions_subscriptions]
      split_ifs with hs
      · subst hs
        exact absurd (h.remaining a sid' [] k hr hE) (by simp)
      · exact hk.imp_right (by rw [hst]; intros; contradiction)
    · cases hr'
      exact h.remaining a sid [] k hr hE
  case close sid kind =>
    have hr : (s.stage a).track.remaining = some (sid, []) := by rw [hst]; rfl
    have hclose : ∀ todo st, (s.stage a).phase = .tearing sid (kind :: todo) →
        st.track = (s.stage a).track →
        Tracked ((s.closeFd (fdOf (s.client sid) kind)).goto a st) := by
      intro todo st hp ht
      exact h.files rfl rfl rfl (fun _ => rfl) _ rfl (h.not_subscribed_close hv hp hr) ht
    cases kind <;> cases hs
    case req => exact hclose [.notif, .resp] _ (by rw [hst]; rfl) (by rw [hst]; rfl)
    case notif => exact hclose [.resp] _ (by rw [hst]; rfl) (by rw [hst]; split_ifs <;> rfl)
    case resp => exact hclose [] _ (by rw [hst]; rfl) (by rw [hst]; rfl)
  case replyDisconnect sid =>
    cases hs
    exact h.same rfl rfl rfl rfl (fun _ => rfl) (by rw [hst]; rfl)

theorem openStep (h : Tracked s) {sid : Sid} {kind : Kind} {x : Input}
    {opened refused : Option Stage}
    (htrack : ∀ st, opened = some st ∨ refused = some st → st.track = (s.stage a).track)
    (hs : openStep s a sid kind x opened refused = some t) : Tracked t := by
  unfold Server.openStep at hs
  split_ifs at hs with hok hfd
  · obtain ⟨st, hst, rfl⟩ := Option.map_eq_some_iff.mp hs
    refine h.files rfl rfl rfl (fun sid' => ?_) x.fd rfl (fun key hsub => ?_)
      (htrack st (.inl hst))
    · by_cases hsid : sid' = sid
      · subst hsid
        simp [State.openFd]
      · simp [State.openFd, hsid]
    · obtain ⟨sid', hopen⟩ := h.owned _ key hsub
      rw [hfd.2] at hopen
      cases hopen
  · obtain ⟨st, hst, rfl⟩ := Option.map_eq_some_iff.mp hs
    exact h.same rfl rfl rfl rfl (fun _ => rfl) (htrack st (.inr hst))

theorem request (h : Tracked s) (hu : u.stage = s.stage) (hht : u.ht = s.ht)
    (hfiles : u.files = s.files) (hclient : u.client = s.client) {sid : Sid} {key : CStr}
    (hreq : u.requested = update s.requested sid (key :: s.requested sid))
    (htrack : (s.stage a).track = {}) (hissuing : st.track = { issuing := some (sid, key) }) :
    Tracked (u.goto a st) := by
  have hmem : ∀ sid' k, k ∈ s.requested sid' → k ∈ u.requested sid' := by
    intro sid' k hk
    rw [hreq]
    by_cases hsid : sid' = sid
    · subst hsid
      rw [update_self]
      exact List.mem_cons_of_mem _ hk
    · rwa [update_of_ne hsid]
  have hentry : ∀ sid' k, Entry u sid' k → Entry s sid' k := by
    intro sid' k he
    rwa [Entry, hht, hfiles] at he
  refine h.goto hu (by rw [hht]; exact h.sub) (by rw [hht, hfiles]; exact h.owned) hentry
    (fun sid' k _ hk => by rw [htrack] at hk; rw [hclient]; exact hk.imp_right nofun)
    (by rw [hissuing]; exact nofun)
    (fun sid' k he => hmem sid' k (h.requested sid' k (hentry _ _ he)))
    (fun b sid' k hb => ?_) (by rw [hissuing]; exact nofun) (fun b fd k hb => ?_)
  · split_ifs at hb
    · rw [hissuing] at hb
      cases hb
      rw [hreq, update_self]
      exact List.mem_cons_self
    · exact hmem sid' k (h.issuing b sid' k hb)
  · rw [hht]
    split_ifs at hb
    · rw [hissuing] at hb
      cases hb
    · exact h.pending b fd k hb

theorem complete (h : Tracked s) (hv : Living s) {i : Fin n} {sid : Sid} {key : Key}
    (hst : s.stage (.client i) = .answer sid (.unsubscribed key)) :
    Tracked ((s.setRequested sid ((s.requested sid).filter (· ≠ key.str))).goto (.client i)
      (.readOp sid)) := by
  have hflight : (s.stage (.client i)).track.flight = none := by rw [hst]; rfl
  have hgone := h.gone (.client i) sid key.str (by rw [hst]; rfl)
  have hkeep : ∀ sid' k, k ∈ s.requested sid' → (sid' = sid → k ≠ key.str) →
      k ∈ (s.setRequested sid ((s.requested sid).filter (· ≠ key.str))).requested sid' := by
    intro sid' k hk hne
    by_cases hsid : sid' = sid
    · subst hsid
      simpa [State.setRequested, hk] using hne rfl
    · simpa [State.setRequested, hsid] using hk
  refine h.goto rfl h.sub h.owned (fun _ _ he => he) (fun sid' k _ hk => ?_) nofun
    (fun sid' k he => ?_) (fun b sid' k hb => ?_) nofun (fun b fd k hb => ?_)
  · rw [hflight] at hk
    exact .inl (hk.resolve_right nofun)
  · refine hkeep sid' k (h.requested sid' k he) ?_
    rintro rfl rfl
    exact hgone he
  · split_ifs at hb with hbi
    · cases hb
    · refine hkeep sid' k (h.issuing b sid' k hb) ?_
      -- the thread that serves the session is the only one
      rintro rfl -
      have hp := phase_of_issuing hb
      have hp' : (s.stage (.client i)).phase = .serving sid' := by rw [hst]; rfl
      exact hbi (hv.sole (by rw [hp']; rfl) (by rw [hp]; rfl) (by rw [hp']; exact nofun)
        (by rw [hp]; exact nofun))
  · split_ifs at hb
    · cases hb
    · exact h.pending b fd k hb

theorem record (h : Tracked s) {i : Fin n} {sid : Sid} {key : Key}
    (hst : s.stage (.client i) = .record sid key) :
    Tracked ((s.setSubscriptions sid (key.str :: (s.client sid).subscriptions)).goto (.client i)
      (.answer sid .subscribed)) := by
  refine h.hold rfl rfl rfl rfl (fun sid' k _ hk => ?_) nofun nofun nofun nofun
  rw [setSubscriptions_subscriptions]
  rcases hk with hk | hk
  · split_ifs with hsid
    · subst hsid
      exact .inl (List.mem_cons_of_mem _ hk)
    · exact .inl hk
  · rw [hst] at hk
    cases hk
    exact .inl (by simp)

/-- The client's list loses the key, and the thread has it in its hands. -/
theorem forget (h : Tracked s) {i : Fin n} {sid : Sid} {key : Key}
    (hst : s.stage (.client i) = .forget sid key) :
    Tracked ((s.setSubscriptions sid
      (clientRemoveSubscription key.str (s.client sid)).subscriptions).goto (.client i)
        (.unsubscribe sid key)) := by
  have htrack : (s.stage (.client i)).track = {} := by rw [hst]; rfl
  refine h.hold rfl rfl rfl rfl (fun sid' k _ hk => ?_) nofun nofun nofun nofun
  rw [htrack] at hk
  have hk := hk.resolve_right nofun
  rw [setSubscriptions_subscriptions]
  by_cases hsid : sid' = sid
  · subst hsid
    rw [if_pos rfl]
    by_cases hkey : k = key.str
    · subst hkey
      exact .inr rfl
    · exact .inl (by simpa [clientRemoveSubscription, strcmp_eq_zero, hkey] using hk)
  · rw [if_neg hsid]
    exact .inl hk

end Tracked

/-- The allocations of a client's record of a subscription succeed. -/
def recorded (s : State τ n) : Label τ n → Prop
  | .act (.client i) x => ∀ sid key, s.stage (.client i) = .record sid key → x.alloc = true
  | _ => True

/-- The thread is to record a subscription. -/
def Stage.recording : Stage → Bool
  | .record _ _ => true
  | _ => false

theorem Stage.recording_eq {st : Stage} (h : st.recording = true) :
    ∃ sid key, st = .record sid key := by
  cases st <;> cases h
  exact ⟨_, _, rfl⟩

instance (s : State τ n) (l : Label τ n) : Decidable (recorded s l) :=
  match l with
  | .act (.client i) x => decidable_of_iff
      ((s.stage (.client i)).recording = true → x.alloc = true)
      ⟨fun h _ _ hst => h (by rw [hst]; rfl), fun h hst =>
        (Stage.recording_eq hst).elim fun sid hkey => hkey.elim fun key hst => h sid key hst⟩
  | .act (.job _) _ | .act .host _ | .signal | .raise | .openFile _ | .closeFile _ =>
    isTrue trivial

namespace Tracked

variable [DecidableEq τ] {s t u : State τ n} {a : Actor τ n} {st : Stage}

theorem clientStep (h : Tracked s) (hl : Locked s) (hv : Living s) {i : Fin n} {x : Input}
    (hr : ∀ sid key, s.stage (.client i) = .record sid key → x.alloc = true)
    (hs : clientStep s i x = some t) : Tracked t := by
  have hsame : ∀ {u : State τ n} {st : Stage}, u.stage = s.stage → u.ht = s.ht →
      u.files = s.files → u.requested = s.requested → u.client = s.client →
      st.track = (s.stage (.client i)).track → Tracked (u.goto (.client i) st) := by
    intro u st hu hht hfiles hreq hclient htrack
    exact h.same hu hht hfiles hreq (fun sid => by rw [hclient]) htrack
  cases hst : s.stage (.client i) <;> simp only [Server.clientStep, hst] at hs
  case openPipe sid kind failed =>
    cases kind <;> refine h.openStep (fun st hst' => ?_) hs <;>
      rcases hst' with hst' | hst' <;> cases hst' <;> rw [hst] <;> rfl
  case disconnect sid =>
    cases hs
    have hp : (s.stage (.client i)).phase = .leaving sid := by rw [hst]; rfl
    refine h.teardown rfl rfl rfl rfl rfl (by rw [hst]; rfl) fun b k hb => ?_
    have hpb := phase_of_flight hb
    have hbi := hv.sole (by rw [hp]; rfl) (by rw [hpb]; rfl) (by rw [hp]; rintro ⟨⟩)
      (by rw [hpb]; rintro ⟨⟩)
    rw [hbi, hp] at hpb
    cases hpb
  case readKey sid subscribe =>
    split at hs
    · cases hs
      exact hsame rfl rfl rfl rfl rfl (by rw [hst]; rfl)
    · split at hs
      · cases hs
        exact hsame rfl rfl rfl rfl rfl (by rw [hst]; rfl)
      · obtain ⟨key, -, rfl⟩ := Option.map_eq_some_iff.mp hs
        cases subscribe with
        | false => exact hsame rfl rfl rfl rfl rfl (by rw [hst]; rfl)
        | true =>
          exact h.request (u := s.setRequested sid (key.str :: s.requested sid)) rfl rfl rfl rfl rfl
            (by rw [hst]; rfl) rfl
  case answer sid what =>
    cases what with
    | refused =>
      cases hs
      exact hsame rfl rfl rfl rfl rfl (by rw [hst]; rfl)
    | subscribed =>
      cases hs
      exact hsame rfl rfl rfl rfl rfl (by rw [hst]; cases x.ok <;> rfl)
    | unsubscribed key =>
      cases hs
      exact h.complete hv hst
  case subscribe sid key =>
    obtain ⟨u, hu, rfl⟩ := Option.map_eq_some_iff.mp hs
    exact h.lock hu (by rw [hst]; rfl)
  case subscribeFind sid key =>
    cases hs
    exact h.subscribeFind hl hv hst x.alloc
  case subscribeUnlock sid key added =>
    cases hs
    exact hsame rfl rfl rfl rfl rfl (by rw [hst]; cases added <;> rfl)
  case record sid key =>
    rw [if_pos (hr sid key hst)] at hs
    cases hs
    exact h.record hst
  case forget sid key =>
    cases hs
    exact h.forget hst
  case unsubscribe sid key =>
    obtain ⟨u, hu, rfl⟩ := Option.map_eq_some_iff.mp hs
    exact h.lock hu (by rw [hst]; rfl)
  case unsubscribeFind sid key =>
    cases hs
    obtain ⟨he, hgone⟩ := h.not_entry_unsubscribed hv (u := s.setChain key.index
      (unsubscribeChain (s.ht key.index) key.str (s.client sid).fdNotif).1) sid key rfl rfl
    refine h.table hl key (by rw [hst]; exact List.mem_singleton_self _) rfl rfl rfl rfl he
      (fun fd hfd => hfd.1) (fun sid' k hf => ?_) (by intros; contradiction) rfl
      (fun sid' k hg => ?_) (by intros; contradiction)
    · rw [hst] at hf
      cases hf
      exact hgone
    · cases hg
      exact hgone
  case unsubscribeUnlock sid key =>
    cases hs
    exact hsame rfl rfl rfl rfl rfl (by rw [hst]; rfl)
  case remove sid =>
    have hrest : ∀ {u : State τ n}, u.stage = s.stage → u.ht = s.ht → u.files = s.files →
        u.requested = s.requested → u.client = s.client → Tracked (u.goto (.client i) .idle) := by
      intro u hu hht hfiles hreq hclient
      exact h.rest hu hht hfiles hreq (fun sid => by rw [hclient]) (by rw [hst]; rfl) rfl
    repeat' split at hs
    all_goals cases hs
    all_goals exact hrest rfl rfl rfl rfl rfl
  all_goals first
    | exact h.teardownStep hl hv hs
    | (repeat' split at hs) <;> cases hs <;>
        exact hsame rfl rfl rfl rfl rfl (by rw [hst]; rfl)

theorem hostStep (h : Tracked s) (hl : Locked s) (hv : Living s) {x : Input}
    (ho : orderly s (.act .host x)) (hs : hostStep s x = some t) : Tracked t := by
  have hsame : ∀ {u : State τ n} {st : Stage}, u.stage = s.stage → u.ht = s.ht →
      u.files = s.files → u.requested = s.requested → u.client = s.client →
      st.track = (s.stage .host).track → Tracked (u.goto .host st) := by
    intro u st hu hht hfiles hreq hclient htrack
    exact h.same hu hht hfiles hreq (fun sid => by rw [hclient]) htrack
  cases hst : s.stage .host <;> simp only [Server.hostStep, hst] at hs
  case cleanSlot =>
    split at hs
    next hk =>
      split at hs
      · cases hs
        exact ⟨h.sub, h.owned, h.listed, h.remaining, h.requested, h.issuing, h.gone, h.pending⟩
      next sid hsid =>
        cases hs
        have hclean : s.cleaning = some sid := by rw [State.cleaning, if_pos hst, dif_pos hk, hsid]
        obtain ⟨-, hparked⟩ := ho sid hclean
        refine h.teardown (u := { s with cleaned := update s.cleaned sid true }) rfl rfl rfl rfl rfl
          (by rw [hst]; rfl) fun b k hb => ?_
        have hpb := phase_of_flight hb
        cases b with
        | job i => rw [phase_of_isJob (hv.jobs i)] at hpb; cases hpb
        | client i => rw [hparked i (by rw [hpb]; rfl)] at hpb; cases hpb
        | host => rw [hst] at hpb; cases hpb
    next =>
      cases hs
      exact hsame rfl rfl rfl rfl rfl (by rw [hst]; rfl)
  case remove sid =>
    split at hs <;> cases hs
    exact h.rest rfl rfl rfl rfl (fun _ => rfl) (by rw [hst]; rfl) rfl
  all_goals first
    | exact h.teardownStep hl hv hs
    | (repeat' split at hs) <;> cases hs <;>
        exact hsame rfl rfl rfl rfl rfl (by rw [hst]; rfl)

omit [DecidableEq τ] in
/-- A job thread sends to the subscribers of the key. -/
theorem mem_sent {chain : List KeyNode} {key : CStr} {sent : List Message}
    (hsent : ∃ v, sent = ((findNode key chain).map fun n => notifySubscribers n key v).getD [])
    {fd : Fd} (hfd : fd ∈ sent.map Message.fd) :
    ∃ node, findNode key chain = some node ∧ fd ∈ node.subscriber := by
  obtain ⟨v, rfl⟩ := hsent
  cases hn : findNode key chain with
  | none => simp [hn] at hfd
  | some node =>
    refine ⟨node, rfl, ?_⟩
    simpa [hn, notifySubscribers] using hfd

theorem jobStep (h : Tracked s) (hl : Locked s) {i : τ} {x : Input}
    (hs : jobStep s i x = some t) : Tracked t := by
  have hcov := hl.covered (.job i)
  -- the subscribers that are sent to are in the list of the key
  have hfound : ∀ (key : Key) (fd : Fd),
      (∃ node, findNode key.str (s.ht key.index) = some node ∧ fd ∈ node.subscriber) →
        Subscribed s.ht fd key.str := by
    rintro key fd ⟨node, hn, hfd⟩
    exact ⟨node.subscriber, by rw [subscribers_eq _ key.located, hn]; rfl, hfd⟩
  have hmove : ∀ {u : State τ n} {st : Stage}, u.stage = s.stage → u.ht = s.ht →
      u.files = s.files → u.requested = s.requested → u.client = s.client →
      (s.stage (.job i)).track.flight = none → st.track.flight = none →
      st.track.remaining = none → st.track.issuing = none → st.track.gone = none →
      (∀ fd key, (fd, key) ∈ st.track.pending → Subscribed s.ht fd key) →
      Tracked (u.goto (.job i) st) := by
    intro u st hu hht hfiles hreq hclient hflight hf hr hi hg hp
    refine h.hold hu hht hfiles hreq (fun sid k _ hk => ?_) (by rw [hr]; intros; contradiction)
      (by rw [hi]; intros; contradiction) (by rw [hg]; intros; contradiction) hp
    rw [hflight] at hk
    rw [hclient]
    exact .inl (hk.resolve_right (by rintro ⟨⟩))
  cases hst : s.stage (.job i) <;> simp only [Server.jobStep, hst, reduceCtorEq] at hs <;>
    rw [hst] at hcov
  case idle =>
    cases hs
    exact h.rest rfl rfl rfl rfl (fun _ => rfl) (by rw [hst]; rfl) rfl
  case locking todo work acq =>
    cases todo with
    | nil =>
      cases hs
      exact h.rest rfl rfl rfl rfl (fun _ => rfl) (by rw [hst]; rfl) rfl
    | cons key todo =>
      simp only at hs
      split at hs
      · cases hs
        exact h.rest rfl rfl rfl rfl (fun _ => rfl) (by rw [hst]; rfl) rfl
      · obtain ⟨u, hu, rfl⟩ := Option.map_eq_some_iff.mp hs
        exact h.lock hu (by rw [hst]; rfl)
  case working work acq =>
    cases work with
    | nil =>
      cases hs
      exact h.rest rfl rfl rfl rfl (fun _ => rfl) (by rw [hst]; rfl) rfl
    | cons u work =>
      have hu : u.key.index ∈ acq := (List.forall_mem_cons.mp hcov).1
      cases u with
      | write key value =>
        cases hs
        have he := effect_writeChain h.sub key.located value.str x.mem
        refine h.table hl key (by rw [hst]; exact hu) rfl rfl rfl rfl he (fun _ hfd => hfd)
          (by rw [hst]; intros; contradiction) (by intros; contradiction) rfl
          (by intros; contradiction) fun fd k hp => ?_
        obtain ⟨fd', hfd', heq⟩ := List.mem_map.mp hp
        cases heq
        refine (he.self fd).mpr (hfound key fd (mem_sent ⟨value.str, ?_⟩ hfd'))
        cases hn : findNode key.str (s.ht key.index) with
        | none => simp [writeChain, hn]; split_ifs <;> rfl
        | some node => simp [writeChain, hn]
      | delete key =>
        cases hs
        refine hmove rfl rfl rfl rfl rfl (by rw [hst]; rfl) rfl rfl rfl rfl fun fd k hp => ?_
        obtain ⟨fd', hfd', heq⟩ := List.mem_map.mp hp
        cases heq
        refine hfound key fd (mem_sent ⟨deleteValue, ?_⟩ hfd')
        cases hn : findNode key.str (s.ht key.index) <;> simp [deleteChain, hn]
  case notifying u fds keySent work acq =>
    have hpending : ∀ fd key, (fd, key) ∈ fds.map (fun fd => (fd, u.key.str)) →
        Subscribed s.ht fd key := fun fd key hp => h.pending (.job i) fd key (by rwa [hst])
    cases fds with
    | nil =>
      cases u with
      | write key value =>
        cases hs
        exact h.rest rfl rfl rfl rfl (fun _ => rfl) (by rw [hst]; rfl) rfl
      | delete key =>
        cases hs
        exact h.table hl key (by rw [hst]; exact hcov.1) rfl rfl rfl rfl
          (effect_deleteChain h.sub key.located) (fun _ hfd => hfd.elim)
          (by rw [hst]; intros; contradiction) (by intros; contradiction) rfl
          (by intros; contradiction) (by intros; contradiction)
    | cons fd fds =>
      have hdeliver : ∀ bytes st, st.track.flight = none → st.track.remaining = none →
          st.track.issuing = none → st.track.gone = none →
          (∀ fd key, (fd, key) ∈ st.track.pending → Subscribed s.ht fd key) →
          Tracked ((s.deliver fd bytes).goto (.job i) st) := by
        intro bytes st hf hr hi hg hp
        obtain ⟨arrived, hd⟩ := deliver_eq s fd bytes
        rw [hd]
        exact hmove rfl rfl rfl rfl rfl (by rw [hst]; rfl) hf hr hi hg hp
      cases keySent with
      | false =>
        cases hs
        exact hdeliver _ _ rfl rfl rfl rfl hpending
      | true =>
        cases hs
        exact hdeliver _ _ rfl rfl rfl rfl fun fd' k hp =>
          hpending fd' k (List.mem_cons_of_mem _ hp)
  case unlocking acq =>
    cases acq <;> cases hs <;>
      exact h.rest rfl rfl rfl rfl (fun _ => rfl) (by rw [hst]; rfl) rfl

theorem step (h : Tracked s) (hl : Locked s) (hv : Living s) {l : Label τ n} (ho : orderly s l)
    (hr : recorded s l) (hs : step s l = some t) : Tracked t := by
  have hfile : ∀ fd f, (∀ key, ¬ Subscribed s.ht fd key) →
      Tracked { s with files := update s.files fd f } := by
    intro fd f hfd
    have hgoto : Tracked (State.goto { s with files := update s.files fd f } .host
        (s.stage .host)) := h.files rfl rfl rfl (fun _ => rfl) fd rfl hfd rfl
    rwa [show s.stage .host = State.stage { s with files := update s.files fd f } .host from rfl,
      goto_self] at hgoto
  cases l with
  | act a x =>
    cases a with
    | job i => exact h.jobStep hl hs
    | client i => exact h.clientStep hl hv (hr · ·) hs
    | host => exact h.hostStep hl hv ho hs
  | signal =>
    cases hs
    exact ⟨h.sub, h.owned, h.listed, h.remaining, h.requested, h.issuing, h.gone, h.pending⟩
  | raise =>
    simp only [Server.step] at hs
    split at hs <;> cases hs
    exact ⟨h.sub, h.owned, h.listed, h.remaining, h.requested, h.issuing, h.gone, h.pending⟩
  | openFile fd =>
    simp only [Server.step] at hs
    split at hs <;> cases hs
    next hfree =>
      refine hfile fd _ fun key hsub => ?_
      obtain ⟨sid, hsid⟩ := h.owned fd key hsub
      rw [hfree.2] at hsid
      cases hsid
  | closeFile fd =>
    simp only [Server.step] at hs
    split at hs <;> cases hs
    next hother =>
      refine hfile fd _ fun key hsub => ?_
      obtain ⟨sid, hsid⟩ := h.owned fd key hsub
      rw [hother] at hsid
      cases hsid

end Tracked

end IstKvs.Server

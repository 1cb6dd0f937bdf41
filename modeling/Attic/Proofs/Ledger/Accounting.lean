import Attic.Proofs.Ledger.Appended
import Attic.Proofs.Ledger.Ranks
import Mathlib

/-!
# Which events account for an entry

A log is replayed event by event. A script that was archived adds an entry, and a
restoration marks the first active entry of its path. So every entry comes from
an event of its own, and every restored one from a later restoration of its path at
the time that the entry says, no two from the same. Replaying does not look at the
batch that a restoration names: it is that of the entry in logs in which each
restoration names the batch of the entry that it marks. Stores write no others, but
logs can be merged and edited.

Key definitions: `Ledger.Account`, `Ledger.Account.Holds`, `Ledger.Justifies`,
`Ledger.Concordant`, `Ledger.Stamped`, `Ledger.accounts`.
Key theorems: `Ledger.Justifies.step`, `Ledger.justifies_accounts`,
`Ledger.restorations_justified`, `Ledger.Store.journal_concordant`.
-/

namespace Attic
namespace Ledger

/-- An entry with the number of the event that made it and, if it is restored, of the
one that restored it. -/
structure Account where
  entry : Entry
  made : Nat
  restoredBy : Option Nat

/-- Whether the events of these numbers say what the entry says. -/
structure Account.Holds (events : List Event) (a : Account) : Prop where
  archived : events[a.made]? = some a.entry.event
  active : a.restoredBy = none → a.entry.status = .active
  restored : ∀ n, a.restoredBy = some n → a.made < n ∧ a.entry.status = .restored ∧
    ∃ original batch moment, events[n]? = some (.restored original batch moment) ∧
      original.same a.entry.original = true ∧ a.entry.restoredAt = some moment

/-- Whether accounts justify the entries of a log: each has an event of its own that
made it, in their order, and each restored one a later restoration of its own. -/
structure Justifies (events : List Event) (as : List Account) : Prop where
  entries : as.map Account.entry = replay events
  holds : ∀ a ∈ as, a.Holds events
  made : ∀ (i j : Nat) (a b : Account), as[i]? = some a → as[j]? = some b → i < j →
    a.made < b.made
  once : ∀ (i j : Nat) (a b : Account) (n : Nat), as[i]? = some a → as[j]? = some b →
    a.restoredBy = some n → b.restoredBy = some n → i = j

/-- Whether an entry is restored by a restoration of its batch, if it is. -/
def Account.InBatch (events : List Event) (a : Account) : Prop :=
  ∀ n, a.restoredBy = some n →
    ∃ original moment, events[n]? = some (.restored original a.entry.batch moment)

/-- Whether each restoration of a log names the batch of the entry that it marks, the
first active one of its path. -/
def Concordant (events : List Event) : Prop :=
  ∀ (pre post : List Event) (original : Path) (batch : String) (moment : Timestamp) (e : Entry),
    events = pre ++ .restored original batch moment :: post →
      (replay pre).find? (Entry.isActiveOf original) = some e → e.batch = batch

/-- Whether no two restorations of a path are of one time. -/
def Stamped (events : List Event) : Prop :=
  ∀ (n m : Nat) (p q : Path) (b c : String) (moment : Timestamp),
    events[n]? = some (.restored p b moment) → events[m]? = some (.restored q c moment) →
      p.same q = true → n = m

variable {events more : List Event} {as : List Account} {a b : Account} {event : Event}
variable {path original : Path} {batch : String} {moment : Timestamp} {n k : Nat} {e : Entry}

/-! ### Replaying with numbers -/

/-- Marks the first active entry of a path, noting which event does it. -/
def markAccount (path : Path) (moment : Timestamp) (n : Nat) : List Account → List Account
  | [] => []
  | a :: as =>
    if a.entry.isActiveOf path then ⟨a.entry.restore moment, a.made, some n⟩ :: as
    else a :: markAccount path moment n as

/-- The accounts after one more event. -/
def account (as : List Account) : Event × Nat → List Account
  | (.archived original archive batch archivedAt reason, n) =>
    as ++ [⟨.fresh original archive batch archivedAt reason, n, none⟩]
  | (.restored original _ moment, n) => markAccount original moment n as

/-- The accounts of the entries that events make up. -/
def accounts (events : List Event) : List Account := events.zipIdx.foldl account []

theorem accounts_concat (events : List Event) (event : Event) :
    accounts (events ++ [event]) = account (accounts events) (event, events.length) := by
  simp [accounts, List.zipIdx_append]

/-- A mark is noted at the first active entry of the path, where there is one. -/
theorem markAccount_cases (path : Path) (moment : Timestamp) (n : Nat) : ∀ as : List Account,
    (as.map Account.entry).find? (Entry.isActiveOf path) = none ∧
        markAccount path moment n as = as ∨
      ∃ k a, as[k]? = some a ∧ a.entry.isActiveOf path = true ∧
        (as.map Account.entry).find? (Entry.isActiveOf path) = some a.entry ∧
        markAccount path moment n as = as.set k ⟨a.entry.restore moment, a.made, some n⟩
  | [] => .inl ⟨rfl, rfl⟩
  | a :: as => by
    rw [markAccount, List.map_cons, List.find?_cons]
    cases active : a.entry.isActiveOf path with
    | true => exact .inr ⟨0, a, rfl, active, rfl, rfl⟩
    | false =>
      rcases markAccount_cases path moment n as with ⟨none, same⟩ | ⟨k, b, there, ih⟩
      · exact .inl ⟨none, congrArg (a :: ·) same⟩
      · exact .inr ⟨k + 1, b, there, ih.1, ih.2.1, congrArg (a :: ·) ih.2.2⟩

/-- Noting a mark marks the entry. -/
theorem map_markAccount (path : Path) (moment : Timestamp) (n : Nat) : ∀ as : List Account,
    (markAccount path moment n as).map Account.entry =
      (markFirst? path moment (as.map Account.entry)).getD (as.map Account.entry)
  | [] => rfl
  | a :: as => by
    rw [markAccount, List.map_cons, markFirst?]
    cases active : a.entry.isActiveOf path with
    | true => rfl
    | false =>
      have ih := map_markAccount path moment n as
      simp only [Bool.false_eq_true, if_false, List.map_cons, ih]
      cases markFirst? path moment (as.map Account.entry) <;> rfl

theorem map_account (as : List Account) (event : Event) (n : Nat) :
    (account as (event, n)).map Account.entry = applyEvent (as.map Account.entry) event := by
  cases event with
  | archived => simp [account, applyEvent]
  | restored original batch moment => exact map_markAccount original moment n as

/-- The accounts are of the entries that the events make up. -/
theorem map_accounts (events : List Event) :
    (accounts events).map Account.entry = replay events := by
  induction events using List.reverseRecOn with
  | nil => rfl
  | append_singleton events event ih => rw [accounts_concat, map_account, ih, replay_append]

/-! ### One more event -/

theorem lt_of_getElem?_eq_some {α : Type} {l : List α} {x : α} (h : l[n]? = some x) :
    n < l.length := (List.getElem?_eq_some_iff.1 h).1

theorem getElem?_append_of_some {α : Type} {l : List α} {x : α} (h : l[n]? = some x)
    (more : List α) : (l ++ more)[n]? = some x := by
  rw [List.getElem?_append_left (lt_of_getElem?_eq_some h), h]

/-- An account holds also when more events follow. -/
theorem Account.Holds.append (h : a.Holds events) (more : List Event) :
    a.Holds (events ++ more) where
  archived := getElem?_append_of_some h.archived more
  active := h.active
  restored n noted := by
    obtain ⟨later, status, original, batch, moment, there, rest⟩ := h.restored n noted
    exact ⟨later, status, original, batch, moment, getElem?_append_of_some there more, rest⟩

theorem Account.Holds.made_lt (h : a.Holds events) : a.made < events.length :=
  lt_of_getElem?_eq_some h.archived

theorem Account.Holds.restoredBy_lt (h : a.Holds events) (noted : a.restoredBy = some n) :
    n < events.length := by
  obtain ⟨-, -, _, _, _, there, -⟩ := h.restored n noted
  exact lt_of_getElem?_eq_some there

theorem getElem?_concat_cases {α : Type} {l : List α} {x y : α} (h : (l ++ [x])[n]? = some y) :
    l[n]? = some y ∨ n = l.length ∧ y = x := by
  by_cases inside : n < l.length
  · exact .inl (by rwa [List.getElem?_append_left inside] at h)
  · have last := lt_of_getElem?_eq_some h
    rw [List.length_append, List.length_singleton] at last
    obtain rfl : n = l.length := by omega
    exact .inr ⟨rfl, by simpa using h.symm⟩

theorem getElem?_set_cases {α : Type} {l : List α} {x y : α} (h : (l.set k x)[n]? = some y) :
    n = k ∧ y = x ∨ n ≠ k ∧ l[n]? = some y := by
  by_cases here : n = k
  · subst here
    have inside := lt_of_getElem?_eq_some h
    rw [List.length_set] at inside
    rw [List.getElem?_set_self inside] at h
    exact .inl ⟨rfl, (Option.some.inj h).symm⟩
  · exact .inr ⟨here, by rwa [List.getElem?_set_ne (Ne.symm here)] at h⟩

/-- A script that was archived has an account of its own, which nothing restores yet. -/
theorem Justifies.archive (h : Justifies events as) (e : Entry) (active : e.status = .active)
    (entries : (as ++ [Account.mk e events.length none]).map Account.entry =
      replay (events ++ [e.event])) :
    Justifies (events ++ [e.event]) (as ++ [Account.mk e events.length none]) where
  entries := entries
  holds a ha := by
    rcases List.mem_append.1 ha with ha | ha
    · exact (h.holds a ha).append _
    · rw [List.mem_singleton.1 ha]
      exact ⟨by simp, fun _ => active, fun n noted => by simp at noted⟩
  made i j a b hi hj less := by
    have first : as[i]? = some a := by
      rcases getElem?_concat_cases hi with hi | ⟨rfl, -⟩
      · exact hi
      · have := lt_of_getElem?_eq_some hj
        simp only [List.length_append, List.length_singleton] at this
        omega
    rcases getElem?_concat_cases hj with hj | ⟨-, rfl⟩
    · exact h.made i j a b first hj less
    · exact (h.holds a (List.mem_of_getElem? first)).made_lt
  once i j a b n hi hj byA byB := by
    rcases getElem?_concat_cases hi with hi | ⟨-, rfl⟩
    · rcases getElem?_concat_cases hj with hj | ⟨-, rfl⟩
      · exact h.once i j a b n hi hj byA byB
      · simp at byB
    · simp at byA

/-- A restoration is the last event, so it is noted once. -/
theorem Justifies.restore (h : Justifies events as) (there : as[k]? = some a)
    (active : a.entry.isActiveOf original = true)
    (entries : (as.set k ⟨a.entry.restore moment, a.made, some events.length⟩).map Account.entry =
      replay (events ++ [.restored original batch moment])) :
    Justifies (events ++ [.restored original batch moment])
      (as.set k ⟨a.entry.restore moment, a.made, some events.length⟩) where
  entries := entries
  holds b hb := by
    rcases List.mem_or_eq_of_mem_set hb with hb | rfl
    · exact (h.holds b hb).append _
    · have own := h.holds a (List.mem_of_getElem? there)
      simp only [Entry.isActiveOf, Bool.and_eq_true] at active
      refine ⟨getElem?_append_of_some own.archived _, fun none => by simp at none,
        fun n noted => ?_⟩
      obtain rfl := Option.some.inj noted
      exact ⟨own.made_lt, rfl, original, batch, moment, by simp, Path.same_symm active.2, rfl⟩
  made i j b c hi hj less := by
    have kept {i : Nat} {b : Account} (hi : (as.set k
        ⟨a.entry.restore moment, a.made, some events.length⟩)[i]? = some b) :
        ∃ b', as[i]? = some b' ∧ b'.made = b.made := by
      rcases getElem?_set_cases hi with ⟨rfl, rfl⟩ | ⟨-, hi⟩
      · exact ⟨a, there, rfl⟩
      · exact ⟨b, hi, rfl⟩
    obtain ⟨b', hi', sameB⟩ := kept hi
    obtain ⟨c', hj', sameC⟩ := kept hj
    rw [← sameB, ← sameC]
    exact h.made i j b' c' hi' hj' less
  once i j b c n hi hj byB byC := by
    have early {i : Nat} {b : Account} (hi : as[i]? = some b)
        (byB : b.restoredBy = some events.length) : False :=
      (Nat.lt_irrefl _ ((h.holds b (List.mem_of_getElem? hi)).restoredBy_lt byB)).elim
    rcases getElem?_set_cases hi with ⟨rfl, rfl⟩ | ⟨-, hi⟩
    · rcases getElem?_set_cases hj with ⟨rfl, -⟩ | ⟨-, hj⟩
      · rfl
      · obtain rfl := Option.some.inj byB
        exact (early hj byC).elim
    · rcases getElem?_set_cases hj with ⟨-, rfl⟩ | ⟨-, hj⟩
      · obtain rfl := Option.some.inj byC
        exact (early hi byB).elim
      · exact h.once i j b c n hi hj byB byC

/-- A restoration that marks nothing leaves the accounts. -/
theorem Justifies.orphan (h : Justifies events as)
    (entries : as.map Account.entry = replay (events ++ [event])) :
    Justifies (events ++ [event]) as :=
  ⟨entries, fun a ha => (h.holds a ha).append _, h.made, h.once⟩

/-- **Accounts justify the entries also after one more event.** -/
theorem Justifies.step (h : Justifies events as) (event : Event) :
    Justifies (events ++ [event]) (account as (event, events.length)) := by
  have entries : (account as (event, events.length)).map Account.entry =
      replay (events ++ [event]) := by
    rw [map_account, h.entries, replay_append]
  cases event with
  | archived original archive batch archivedAt reason =>
    exact h.archive (.fresh original archive batch archivedAt reason) rfl entries
  | restored original batch moment =>
    rw [account] at entries ⊢
    rcases markAccount_cases original moment events.length as with
      ⟨-, same⟩ | ⟨k, a, there, active, -, noted⟩
    · rw [same] at entries ⊢
      exact h.orphan entries
    · rw [noted] at entries ⊢
      exact h.restore there active entries

/-- **Replaying justifies every entry that it makes.** -/
theorem justifies_accounts (events : List Event) : Justifies events (accounts events) := by
  induction events using List.reverseRecOn with
  | nil => exact ⟨rfl, by simp [accounts], by simp [accounts], by simp [accounts]⟩
  | append_singleton events event ih =>
    rw [accounts_concat]
    exact ih.step event

/-! ### Batches -/

theorem Concordant.of_append (h : Concordant (events ++ more)) : Concordant events := by
  intro pre post original batch moment e split found
  refine h pre (post ++ more) original batch moment e ?_ found
  rw [split, List.append_assoc, List.cons_append]

theorem Account.InBatch.append (h : a.InBatch events) (more : List Event) :
    a.InBatch (events ++ more) := by
  intro n noted
  obtain ⟨original, moment, there⟩ := h n noted
  exact ⟨original, moment, getElem?_append_of_some there more⟩

/-- **In a concordant log entries are restored in their batch.** -/
theorem Concordant.inBatch (h : Concordant events) : ∀ a ∈ accounts events, a.InBatch events := by
  induction events using List.reverseRecOn with
  | nil => simp [accounts]
  | append_singleton events event ih =>
    have before : ∀ a ∈ accounts events, a.InBatch (events ++ [event]) := fun a ha =>
      (ih h.of_append a ha).append _
    rw [accounts_concat]
    cases event with
    | archived original archive batch archivedAt reason =>
      intro a ha
      rcases List.mem_append.1 ha with ha | ha
      · exact before a ha
      · rw [List.mem_singleton.1 ha]
        exact fun n noted => by simp at noted
    | restored original batch moment =>
      rw [account]
      rcases markAccount_cases original moment events.length (accounts events) with
        ⟨-, same⟩ | ⟨k, a, there, -, found, noted⟩
      · rw [same]
        exact before
      · rw [noted]
        rw [map_accounts] at found
        intro b hb
        rcases List.mem_or_eq_of_mem_set hb with hb | rfl
        · exact before b hb
        · intro n last
          obtain rfl := Option.some.inj last
          have named : a.entry.batch = batch := h events [] original batch moment _ rfl found
          exact ⟨original, moment, by simp [Entry.restore, named]⟩

/-! ### Accounts that stay -/

/-- What has been restored has its account for good. -/
theorem getElem?_account (there : as[k]? = some a) (idle : a.entry.isActive = false)
    (event : Event) (n : Nat) : (account as (event, n))[k]? = some a := by
  cases event with
  | archived => exact getElem?_append_of_some there _
  | restored original batch moment =>
    rw [account]
    rcases markAccount_cases original moment n as with ⟨-, same⟩ | ⟨j, b, thereB, active, -, noted⟩
    · rw [same, there]
    · rw [noted, List.getElem?_set_ne, there]
      rintro rfl
      obtain rfl := Option.some.inj (thereB.symm.trans there)
      simp [Entry.isActiveOf, idle] at active

theorem getElem?_accounts_append (there : (accounts events)[k]? = some a)
    (idle : a.entry.isActive = false) (more : List Event) :
    (accounts (events ++ more))[k]? = some a := by
  induction more using List.reverseRecOn with
  | nil => rwa [List.append_nil]
  | append_singleton more event ih =>
    rw [← List.append_assoc, accounts_concat]
    exact getElem?_account ih idle event _

/-- A restoration is noted at the first active entry of its path. -/
theorem exists_account {pre : List Event}
    (found : (replay pre).find? (Entry.isActiveOf original) = some e) (batch : String)
    (moment : Timestamp) (post : List Event) :
    ∃ (k : Nat) (a : Account),
      (accounts (pre ++ .restored original batch moment :: post))[k]? = some a ∧
        a.entry = e.restore moment ∧ a.restoredBy = some pre.length := by
  rw [← map_accounts] at found
  rcases markAccount_cases original moment pre.length (accounts pre) with
    ⟨none, -⟩ | ⟨k, a, there, -, first, noted⟩
  · rw [found] at none
    simp at none
  · obtain rfl : e = a.entry := Option.some.inj (found.symm.trans first)
    have marked : (accounts (pre ++ [.restored original batch moment]))[k]? =
        some ⟨a.entry.restore moment, a.made, some pre.length⟩ := by
      rw [accounts_concat, account, noted, List.getElem?_set_self (lt_of_getElem?_eq_some there)]
    have later := getElem?_accounts_append marked rfl post
    rw [List.append_assoc, List.singleton_append] at later
    exact ⟨k, _, later, rfl, rfl⟩

/-- Accounts that justify a log agree on what the entries are. -/
theorem Justifies.getElem? (h : Justifies events as) (there : (accounts events)[k]? = some a) :
    ∃ b, as[k]? = some b ∧ b.entry = a.entry := by
  have same : (as.map Account.entry)[k]? = some a.entry := by
    rw [h.entries, ← map_accounts, List.getElem?_map, there]
    rfl
  rw [List.getElem?_map] at same
  exact Option.map_eq_some_iff.1 same

/-- Where restorations differ in their times, only those of a concordant log can name
the batches of what they restore. -/
theorem Justifies.concordant (h : Justifies events as) (inBatch : ∀ a ∈ as, a.InBatch events)
    (stamped : Stamped events) : Concordant events := by
  intro pre post original batch moment e split found
  obtain ⟨k, a, there, entry, -⟩ := exists_account found batch moment post
  rw [← split] at there
  obtain ⟨b, thereB, same⟩ := h.getElem? there
  have inside := List.mem_of_getElem? thereB
  rw [entry] at same
  cases noted : b.restoredBy with
  | none =>
    have active := (h.holds b inside).active noted
    simp [same, Entry.restore] at active
  | some n =>
    obtain ⟨-, -, q, c, moment', restored, path, time⟩ := (h.holds b inside).restored n noted
    obtain ⟨q', moment'', restored'⟩ := inBatch b inside n noted
    obtain ⟨-, named, -⟩ := Event.restored.inj (Option.some.inj (restored.symm.trans restored'))
    rw [same] at path time named
    obtain rfl : moment = moment' := Option.some.inj time
    -- both restorations are of this path and time, so they are one
    have active := List.find?_some found
    simp only [Entry.isActiveOf, Bool.and_eq_true] at active
    have here : events[pre.length]? = some (.restored original batch moment) := by simp [split]
    obtain rfl := stamped _ _ _ _ _ _ _ restored here (Path.same_trans path active.2)
    obtain ⟨-, this, -⟩ := Event.restored.inj (Option.some.inj (restored.symm.trans here))
    exact (this.symm.trans named).symm

/-- **Every restored entry of a log is justified** by a restoration of its path behind the
event that made it, at the time that it says, and no two by the same. The batches agree
in concordant logs; and where the restorations of a path differ in their times, in no
others. -/
theorem restorations_justified (events : List Event) :
    (∃ as, Justifies events as ∧ (Concordant events → ∀ a ∈ as, a.InBatch events)) ∧
    (Stamped events → ∀ as, Justifies events as → (∀ a ∈ as, a.InBatch events) →
      Concordant events) :=
  ⟨⟨accounts events, justifies_accounts events, Concordant.inBatch⟩,
    fun stamped _ justified inBatch => justified.concordant inBatch stamped⟩

/-- A script of one batch that a restoration of another restores. -/
def mergedEvents : List Event :=
  [.archived ⟨"a.sh"⟩ ⟨"z/a.sh"⟩ "b1" ⟨⟨2025, 6, 1⟩, 43200, 0⟩ "unused",
    .restored ⟨"a.sh"⟩ "b2" ⟨⟨2025, 6, 2⟩, 43200, 0⟩]

/-- The entry of batch `b1` is restored, and nothing justifies it. -/
theorem restorations_justified_merged :
    replay mergedEvents = [.restore (.fresh ⟨"a.sh"⟩ ⟨"z/a.sh"⟩ "b1" ⟨⟨2025, 6, 1⟩, 43200, 0⟩
      "unused") ⟨⟨2025, 6, 2⟩, 43200, 0⟩] ∧
    (∃ as, Justifies mergedEvents as) ∧
    ¬ ∃ as, Justifies mergedEvents as ∧ ∀ a ∈ as, a.InBatch mergedEvents := by
  obtain ⟨⟨as, justified, -⟩, others⟩ := restorations_justified mergedEvents
  have stamped : Stamped mergedEvents := by
    have one {n : Nat} {p : Path} {b : String} {moment : Timestamp}
        (h : mergedEvents[n]? = some (.restored p b moment)) : n = 1 := by
      match n with
      | 0 => simp [mergedEvents] at h
      | 1 => rfl
      | n + 2 => simp [mergedEvents] at h
    intro n m p q b c moment hn hm _
    rw [one hn, one hm]
  refine ⟨by decide, ⟨as, justified⟩, ?_⟩
  rintro ⟨as, justified, inBatch⟩
  have concordant := others stamped as justified inBatch
  have named := concordant [mergedEvents[0]] [] ⟨"a.sh"⟩ "b2" _ _ rfl rfl
  exact absurd named (by decide)

/-! ### What stores write -/

theorem Concordant.archived (h : Concordant events) (e : Entry) :
    Concordant (events ++ [e.event]) := by
  intro pre post original batch moment d split found
  rcases List.eq_nil_or_concat post with rfl | ⟨post, last, rfl⟩
  · have last := (List.append_inj' split rfl).2
    simp [Entry.event] at last
  · rw [List.concat_eq_append, ← List.cons_append, ← List.append_assoc] at split
    exact h pre post original batch moment d (List.append_inj' split rfl).1 found

/-- A restoration that names the batch of the entry that it marks. -/
theorem Concordant.restored (h : Concordant events)
    (found : (replay events).find? (Entry.isActiveOf path) = some e) (moment : Timestamp) :
    Concordant (events ++ [.restored e.original e.batch moment]) := by
  intro pre post original batch moment' d split found'
  rcases List.eq_nil_or_concat post with rfl | ⟨post, last, rfl⟩
  · obtain ⟨rfl, last⟩ := List.append_inj' split rfl
    obtain ⟨rfl, rfl, -⟩ := Event.restored.inj (List.singleton_injective last)
    have active := List.find?_some found
    simp only [Entry.isActiveOf, Bool.and_eq_true] at active
    rw [isActiveOf_congr active.2, found] at found'
    rw [Option.some.inj found']
  · rw [List.concat_eq_append, ← List.cons_append, ← List.append_assoc] at split
    exact h pre post original batch moment' d (List.append_inj' split rfl).1 found'

/-- The events of a journal are concordant, and nothing but blanks follows the last line
feed of its text; or it is not there yet. -/
def Journal.Concords (path : Path) (t : Tree) : Prop :=
  ∃ text events, Holds path t text ∧ Ended text ∧ readEvents path text = .ok events ∧
    Concordant events

theorem Journal.entries_of_events {t : Tree} {text : String} (holds : Holds path t text)
    (read : readEvents path text = .ok events) : Journal.entries path t = .ok (replay events) := by
  rw [entries, events_of_holds holds, read]
  rfl

/-- A write puts a concordant event behind the others, or leaves them. -/
theorem Journal.Concords.append {t : Tree} {text : String} (holds : Holds path t text)
    (ended : Ended text) (read : readEvents path text = .ok events) (before : Concordant events)
    (after : Concordant (events ++ [event])) (valid : event.moment.isValid = true) :
    Concords path (Journal.append path event t).2 := by
  rcases holds.append event with ⟨t', done, holds'⟩ | ⟨f, t', failed, holds'⟩
  · rw [done]
    have ended' : Ended (text ++ event.line) := by
      rw [Ended, unended_line]
      rfl
    refine ⟨_, _, holds', ended', ?_, after⟩
    rw [readEvents_append_line read valid]
    exact if_pos ended
  · rw [failed]
    exact ⟨text, events, holds', ended, read, before⟩

/-- **A journal that its store alone writes is concordant**, so that its restorations
restore their own batches. -/
theorem Store.journal_concordant (path : Path) :
    (Store.journal path).Preserves fun r => Journal.Concords path r.tree where
  record := by
    rintro e r valid ⟨text, events, holds, ended, read, concordant⟩
    have entries := Journal.entries_of_events holds read
    rw [record_eq entries]
    split
    · exact ⟨text, events, holds, ended, read, concordant⟩
    · exact .append holds ended read concordant (concordant.archived e) valid
  mark := by
    rintro original moment r valid ⟨text, events, holds, ended, read, concordant⟩
    have entries := Journal.entries_of_events holds read
    cases found : (replay events).find? (Entry.isActiveOf original) with
    | none =>
      rw [markRestored_of_none entries found]
      exact ⟨text, events, holds, ended, read, concordant⟩
    | some e =>
      rw [markRestored_of_some entries found]
      exact .append holds ended read concordant (concordant.restored found moment) valid

end Ledger
end Attic

import Attic.Ledger.Unreliable
import Attic.Proofs.Tree.Staying
import Mathlib

/-!
# What writing a ledger does to the tree

A record that is accepted changes the tree at most where the ledger stands: the
file there gets other bytes, and folders come where nothing was. Where the ledger
stands it also stands later, unless something was moved there.

Key definitions: `Ledger.Scribe`, `Ledger.Scribe.memory`,
`Ledger.Scribe.journal`, `Ledger.Scribe.refusing`.
-/

namespace Attic

namespace Tree

/-- A file that is written stands where its path leads, and nothing else
changes. -/
theorem Grounded.updateFile {t t' : Tree} {p : Path} {update : ByteArray → ByteArray}
    (grounded : t.Grounded) (h : t.updateFile p update = (.ok (), t')) :
    ∃ l, t'.placeOf? true p = some l ∧ t'.Grounded ∧ Stays [] [] t t' ∧
      ∀ k, k ≠ l → t'.get? k = t.get? k := by
  unfold Tree.updateFile at h
  cases hs : t.spot true false p with
  | error f => simp [hs] at h
  | ok s =>
    have holds := grounded.spot_holds hs
    obtain ⟨fault, way⟩ := spot_eq_ok hs
    have written {k : Location} {mode : Nat} {bytes : ByteArray} (at' : s.fileAt k)
        (folder : t.get? k.dropLast = some .folder) (free : t.get? k ≠ some .folder)
        (e : t' = t.set k (.file mode bytes)) : ∃ l, t'.placeOf? true p = some l ∧ t'.Grounded ∧
          Stays [] [] t t' ∧ ∀ k, k ≠ l → t'.get? k = t.get? k := by
      obtain ⟨-, hk, files⟩ := walk_fileAt at' way
      have spot : (t.set k (.file mode bytes)).spot true false p = _ :=
        spot_of_walk fault (walk_set_file at' hk files way)
      subst e
      exact ⟨k, placeOf?_eq_some.2 ⟨_, spot, rfl⟩, grounded.set hk folder free,
        .set_file hk files, fun k' hk' => get?_set_other hk'⟩
    simp only [hs] at h
    split at h
    · simp at h
    cases s with
    | vacant l name =>
      obtain ⟨folder, none⟩ := holds
      refine written rfl ?_ (by simp [none]) (Prod.mk.inj h).2.symm
      rwa [List.dropLast_concat]
    | found l o =>
      have there : t.get? l = some o := holds
      cases o with
      | file mode bytes =>
        have free : t.get? l ≠ some .folder := by simp [there]
        refine written rfl ?_ free (Prod.mk.inj h).2.symm
        exact grounded l (ne_nil_of_get? free) (by simp [there])
      | folder => simp at h
      | link target => simp at h

end Tree

namespace Ledger

/-- How a store writes its ledger. -/
structure Scribe (s : Store) where
  /-- Where the ledger stands in a tree. -/
  place : Tree → Option Location
  /-- A record changes nothing else. -/
  writes : ∀ {e r r'}, r.tree.Grounded → s.record e r = (.ok (), r') →
    r'.tree.Grounded ∧ Tree.Stays [] [] r.tree r'.tree ∧
      ∀ l, place r'.tree ≠ some l → r.tree.GrowsAt r'.tree l
  /-- The ledger is written at one place, unless something is moved there. -/
  stays : ∀ {e f r₁ r₂ r₃ r₄} {sources targets : List Location},
    r₁.tree.Grounded → s.record e r₁ = (.ok (), r₂) →
    r₃.tree.Grounded → s.record f r₃ = (.ok (), r₄) →
    Tree.Stays sources targets r₂.tree r₄.tree →
    (∀ l ∈ sources, ∀ target, r₂.tree.get? l ≠ some (.link target)) →
    place r₄.tree = place r₂.tree ∨ ∃ l ∈ targets, place r₄.tree = some l

namespace Scribe

/-- The ledger in memory. -/
def memory : Scribe .memory where
  place _ := none
  writes := by
    intro e r r' grounded done
    simp only [Store.memory] at done
    split at done
    · simp at done
    · obtain rfl := (Prod.mk.inj done).2
      exact ⟨grounded, .refl _, fun _ _ => .inl rfl⟩
  stays := fun _ _ _ _ _ _ => .inl rfl

/-- A store that refuses the records of some scripts. -/
def refusing {s : Store} (k : Scribe s) (refused : Path → Bool) : Scribe (.refusing refused s) where
  place := k.place
  writes := by
    intro e r r' grounded done
    simp only [Store.refusing] at done
    split at done
    · simp at done
    · exact k.writes grounded done
  stays := by
    intro e f r₁ r₂ r₃ r₄ sources targets grounded done grounded' done' stays moved
    simp only [Store.refusing] at done done'
    split at done
    · simp at done
    split at done'
    · simp at done'
    exact k.stays grounded done grounded' done' stays moved

section

variable {path : Path} {e : Entry} {r r' : Repository} {t t' : Tree}

theorem prepare_grows (grounded : t.Grounded) (path : Path) :
    (Journal.prepare path t).2.Grounded ∧ t.Grows (Journal.prepare path t).2 := by
  unfold Journal.prepare
  split
  · split
    · exact ⟨grounded, .refl t⟩
    · exact grounded.makeFolders_grows _
  · exact ⟨grounded, .refl t⟩

/-- An event is appended where the path of the journal leads. -/
theorem append_writes {event : Event} (grounded : t.Grounded)
    (done : Journal.append path event t = (.ok (), t')) :
    ∃ l, t'.placeOf? true path = some l ∧ t'.Grounded ∧ Tree.Stays [] [] t t' ∧
      ∀ k, k ≠ l → t.GrowsAt t' k := by
  obtain ⟨grounded₁, grows⟩ := prepare_grows grounded path
  unfold Journal.append at done
  split at done
  · simp at done
  next t₁ prepared =>
  rw [prepared] at grounded₁ grows
  split at done
  · simp at done
  next t₂ written =>
  obtain rfl := (Prod.mk.inj done).2
  obtain ⟨l, place, grounded₂, stays, elsewhere⟩ := grounded₁.updateFile written
  refine ⟨l, place, grounded₂, (Tree.Stays.of_grows grows).trans stays, fun k hk => ?_⟩
  exact (grows k).trans (.inl (elsewhere k hk))

/-- A journal that accepts a record is written where its path leads. -/
theorem journal_record (grounded : r.tree.Grounded)
    (done : (Store.journal path).record e r = (.ok (), r')) :
    ∃ l, r'.tree.placeOf? true path = some l ∧ r'.tree.Grounded ∧
      Tree.Stays [] [] r.tree r'.tree ∧ ∀ k, k ≠ l → r.tree.GrowsAt r'.tree k := by
  simp only [Store.journal] at done
  split at done
  · simp at done
  split at done
  · simp at done
  obtain ⟨appended, rfl⟩ := Prod.mk.inj done
  exact append_writes grounded (Prod.ext appended rfl)

/-- The ledger in a journal. -/
def journal (path : Path) : Scribe (.journal path) where
  place t := t.placeOf? true path
  writes := by
    intro e r r' grounded done
    obtain ⟨l, place, grounded', stays, elsewhere⟩ := journal_record grounded done
    refine ⟨grounded', stays, fun k other => elsewhere k ?_⟩
    rintro rfl
    exact other place
  stays := by
    intro e f r₁ r₂ r₃ r₄ sources targets grounded done grounded' done' stays moved
    obtain ⟨l, place, -⟩ := journal_record grounded done
    obtain ⟨m, place', -⟩ := journal_record grounded' done'
    rw [place, place']
    rcases stays.placeOf? moved place place' with same | ⟨-, inside⟩
    · exact .inl (by rw [same])
    · exact .inr ⟨m, inside, rfl⟩

end

end Scribe
end Ledger
end Attic

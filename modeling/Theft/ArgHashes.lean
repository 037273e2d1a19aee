import Theft.Held

/-!
# The hashes of the arguments

`hashAll` is the hash under which the bloom filter knows a combination of arguments, as a
function of what the trial holds; `theft_call_check_called` and `theft_call_mark_called` ask
for it and set it.
-/

namespace Theft

open PackedBits Exec

section
variable {R I σ : Type} {n : Nat} {r : Runner I σ n} {s₀ s : RunState R I σ n}

/-- The hash callbacks depend on the instance only. -/
def HashesBy (r : Runner I σ n) (hashes : Fin n → Option I → Word) : Prop :=
  ∀ i hash, (r.typeInfo i).hash = some hash → ∀ inst u, (hash inst u).1 = hashes i inst

/-- The hash of an argument, when the callbacks depend on the instance only. -/
def hashOf (r : Runner I σ n) (hashes : Fin n → Option I → Word) (i : Fin n) (a : ArgInfo I) :
    Except Stop Word :=
  if (r.typeInfo i).hash.isSome then .ok (hashes i a.inst)
  else
    match a.env with
    | some env => autoshrinkHash env
    | none => .error .outOfBounds

/-- The hash of all arguments, under which a call is known to the bloom filter. -/
def hashAll (r : Runner I σ n) (hashes : Fin n → Option I → Word) (args : Fin n → ArgInfo I) :
    Except Stop Word :=
  ((List.finRange n).mapM fun i => hashOf r hashes i (args i)).map fun buffer =>
    hashOnepass (hashBytes buffer)

theorem hashOf_core {hashes : Fin n → Option I → Word} (i : Fin n) {a b : ArgInfo I}
    (h : a.core = b.core) : hashOf r hashes i a = hashOf r hashes i b := by
  have hinst := congrArg ArgInfo.inst h
  have henv := congrArg ArgInfo.env h
  simp only [ArgInfo.core] at hinst henv
  unfold hashOf
  rw [hinst]
  cases ha : a.env with
  | none =>
    cases hb : b.env with
    | none => rfl
    | some env' => rw [ha, hb] at henv; cases henv
  | some env =>
    cases hb : b.env with
    | none => rw [ha, hb] at henv; cases henv
    | some env' =>
      rw [ha, hb] at henv
      simp only [Option.map_some] at henv
      dsimp only
      rw [← autoshrinkHash_core env, ← autoshrinkHash_core env', Option.some.inj henv]

theorem sunkBytes_ok {pool : BitPool} (inv : pool.Inv) : ∃ bytes, sunkBytes pool = .ok bytes := by
  have hbytes := inv.bytes
  have hceil := inv.filled_le_ceil
  have hconsumed := inv.consumed_le_filled
  unfold sunkBytes
  rw [if_pos (by omega)]
  split
  · rename_i hrem
    have hlt : pool.consumed / 8 < pool.bits.length := by omega
    rw [List.getElem?_eq_getElem hlt]
    exact ⟨_, rfl⟩
  · exact ⟨_, rfl⟩

namespace Keeps
variable [Platform R]

theorem hashArg (h : ∀ i, (r.typeInfo i).hash.isSome ∨ r.autoshrinks i = true) (i : Fin n) :
    Keeps r s₀ (hashArg r i) fun w =>
      ∀ hashes, HashesBy r hashes → hashOf r hashes i (s₀.trial.args i) = .ok w := by
  apply bind get
  intro s hs
  dsimp only
  cases hhash : (r.typeInfo i).hash with
  | some hash =>
    apply bind (record _)
    intro _ _
    refine mono (runPlain _) ?_
    rintro w ⟨u, rfl⟩ hashes hby
    rw [hashOf, hhash, hby i hash hhash, hs.inst]
    rfl
  | none =>
    have henable : r.autoshrinks i = true := by
      have := h i
      rw [hhash] at this
      simpa using this
    obtain ⟨env, pool, hready⟩ := hs.ready.args i henable
    obtain ⟨bytes, hbytes⟩ := sunkBytes_ok hready.valid.inv
    have hrun : autoshrinkHash env = .ok (hashOnepass bytes) := by
      rw [autoshrinkHash, hready.hasPool]
      simp only [hbytes]
      rfl
    rw [hready.hasEnv]
    dsimp only
    rw [hrun]
    refine Spec.attempt rfl fun t ht => ⟨ht, ?_⟩
    intro hashes _
    rw [← hashOf_core i (hs.core i), hashOf, hhash, hready.hasEnv]
    exact hrun

theorem getArgHashBuffer (h : ∀ i, (r.typeInfo i).hash.isSome ∨ r.autoshrinks i = true)
    (is : List (Fin n)) :
    Keeps r s₀ (getArgHashBuffer r is) fun buffer => ∀ hashes, HashesBy r hashes →
      is.mapM (fun i => hashOf r hashes i (s₀.trial.args i)) = .ok buffer := by
  induction is with
  | nil => exact pure fun _ _ => rfl
  | cons i is ih =>
    apply bind (hashArg h i)
    intro w hw
    apply bind ih
    intro buffer hbuffer
    refine pure fun hashes hby => ?_
    rw [List.mapM_cons, hw hashes hby, hbuffer hashes hby]
    rfl

/-- A combination of arguments that was not called has a hash that is not marked. -/
theorem callCheckCalled (hs₀ : s₀.bloom.isSome) :
    Keeps r s₀ (callCheckCalled r) fun found => found = false → r.filterMemory = granted →
      ∀ hashes, HashesBy r hashes → ∃ w, hashAll r hashes s₀.trial.args = .ok w ∧ ¬ s₀.Seen w := by
  intro s hs
  have hhashable := hs.ready.hashable (by rw [hs.bloom]; exact hs₀)
  refine Keeps.bind (getArgHashBuffer hhashable _) (fun buffer hbuffer => ?_) s hs
  apply bind get
  intro t ht
  obtain ⟨b, hb⟩ := Option.isSome_iff_exists.mp (ht.bloom.trans hs₀)
  rw [hb]
  dsimp only
  obtain ⟨found, hcheck, -⟩ := check_iff (ht.ready.bloom b hb) (hashOnepass (hashBytes buffer))
  refine Spec.attempt hcheck fun t' ht' => ⟨ht', ?_⟩
  rintro rfl hgranted hashes hby
  refine ⟨hashOnepass (hashBytes buffer), ?_, fun hseen => ?_⟩
  · rw [Theft.hashAll, hbuffer hashes hby]
    rfl
  · obtain ⟨b', hb', hfound⟩ := ht.seen hgranted _ hseen
    rw [hb] at hb'
    cases hb'
    rw [hcheck] at hfound
    cases hfound

/-- Marking keeps what is marked, and marks the arguments. -/
theorem callMarkCalled (hs₀ : s₀.bloom.isSome) :
    Spec (Held r s₀) (callMarkCalled r)
      (fun _ s => Held r s₀ s ∧ (r.filterMemory = granted → ∀ hashes, HashesBy r hashes →
        ∃ w, hashAll r hashes s₀.trial.args = .ok w ∧ s.Seen w))
      fun e _ => e = .fuel := by
  intro s hs
  have hhashable := hs.ready.hashable (by rw [hs.bloom]; exact hs₀)
  refine andThen (getArgHashBuffer hhashable _) (fun buffer hbuffer => ?_) s hs
  apply getThen
  rintro t ht _ rfl
  obtain ⟨b, hb⟩ := Option.isSome_iff_exists.mp (ht.bloom.trans hs₀)
  obtain ⟨ok, b', hmark, inv'⟩ := mark_any r.filterMemory (ht.ready.bloom b hb)
    (hashOnepass (hashBytes buffer))
  rw [hb]
  simp only [bind_apply, attempt, bloomMark, hmark, modify_apply]
  refine ⟨⟨⟨ht.ready.prng, ht.ready.noPool, ht.ready.args, ?_, fun _ => hhashable⟩, ht.core,
    hs₀.symm, ?_⟩, ?_⟩
  · rintro _ ⟨⟩
    exact inv'
  · rintro hgranted w hw
    obtain ⟨b₁, hb₁, hfound⟩ := ht.seen hgranted w hw
    rw [hb] at hb₁
    cases hb₁
    rw [hgranted] at hmark
    exact ⟨b', rfl, check_mono (ht.ready.bloom b hb) hmark hfound⟩
  · rintro hgranted hashes hby
    rw [hgranted] at hmark
    refine ⟨hashOnepass (hashBytes buffer), ?_, b', rfl, check_marked (ht.ready.bloom b hb) hmark⟩
    rw [Theft.hashAll, hbuffer hashes hby]
    rfl

end Keeps

end

end Theft

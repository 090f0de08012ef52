import Pear.Rewriting.Modes

/-! # Bytes added to the read-only data

The first and the last pass add to the read-only data of the module; the patches of the pass between
them do not.
-/
namespace Pear.Rewriting
open Python

/-- The space before the signatures, and each signature with its terminator and space. -/
def GlobalData.rodataSize (d : GlobalData) : ℕ := 16 + (d.signatures.map fun s => s.1.length + 1 + s.2).sum

def Patch.rodataSize : Patch → ℤ
  | aflData d => d.rodataSize
  | rodataPadding bytes => bytes
  | _ => 0

def Context.rodataSize (c : Context) : ℤ := (c.insertions.map fun i => i.patch.rodataSize).sum

theorem insert_rodataSize (c : Context) (place : Place) (patch : Patch) :
    (c.insert place patch).rodataSize = c.rodataSize + patch.rodataSize := by
  simp [Context.rodataSize]

/-- The patches that the instrumenting pass inserts at the locations of the program. -/
inductive AddAfl.Inserts (pass : AddAfl) : Patch → Prop
  | start : Inserts pass startForkserver
  | hook : Inserts pass pass.setupAndCallHook
  | loop : Inserts pass pass.persistentModePatch
  | trace (id : BitVec 16) : Inserts pass (.trampoline id)

section Preserves

variable {pass : AddAfl} {K : Context → Prop} {p q : Progress} {place : Place}

variable (hK : ∀ c place patch, pass.Inserts patch → K c → K (c.insert place patch))
include hK

theorem insertForkserver_preserves (hp : K p.context) : K (pass.insertForkserver place p).context := by
  have hstart := hK _ place _ .start hp
  unfold AddAfl.insertForkserver
  by_cases hi : pass.sharedmemLocIsInit = true
  · simp only [hi, if_true]
    exact hK _ place _ .hook hstart
  · simp only [hi, if_false, Bool.false_eq_true]
    exact hstart

theorem insertPersistentMode_preserves (hp : K p.context) :
    K (pass.insertPersistentMode place p).context := hK _ place _ .loop hp

theorem addBlockTracing_preserves {cfg : List Edge} {ids : ℕ → BitVec 16} {f : Function} (hp : K p.context)
    (h : AddAfl.addBlockTracing cfg ids f p = .ok q) : K q.context := by
  refine foldlM_preserves (K := fun p => K p.context) ?_ hp h
  intro p blocks q hp hq
  obtain ⟨head,-,hq⟩ := bind_ok hq
  cases hq
  exact hK _ _ _ (.trace _) hp

theorem instrumentFunction_preserves {m : Module} {ids : ℕ → BitVec 16} {f : Function} (hp : K p.context)
    (h : pass.instrumentFunction m ids p f = .ok q) : K q.context := by
  unfold AddAfl.instrumentFunction at h
  split at h
  · cases h
    exact hp
  · obtain ⟨p₁,hp₁,h⟩ := bind_ok h
    obtain ⟨p₂,hp₂,h⟩ := bind_ok h
    have h₁ : K p₁.context := by
      unfold AddAfl.startInFunction at hp₁
      split at hp₁
      · obtain ⟨b,-,hp₁⟩ := bind_ok hp₁
        cases hp₁
        exact insertForkserver_preserves hK hp
      · cases hp₁
        exact hp
    have h₂ : K p₂.context := by
      unfold AddAfl.persistInFunction at hp₂
      split at hp₂
      · obtain ⟨b,-,hp₂⟩ := bind_ok hp₂
        cases hp₂
        exact insertPersistentMode_preserves hK h₁
      · cases hp₂
        exact h₁
    exact addBlockTracing_preserves hK h₂ h

omit hK in
theorem atAddress_preserves {mappings : List (ℤ × Uuid)} {m : Module} {address : Option ℤ}
    {insert : Place → Progress → Progress} (hinsert : ∀ place, K (insert place p).context) (hp : K p.context)
    (h : AddAfl.atAddress mappings m address insert p = .ok q) : K q.context := by
  unfold AddAfl.atAddress at h
  split at h
  · obtain ⟨i,-,h⟩ := bind_ok h
    cases h
    exact hinsert _
  · cases h
    exact hp

/-- What the insertions of the instrumenting pass preserve holds at its end. -/
theorem beginModule_preserves {file patches : List (String × String)} {m : Module} {functions : List Function}
    {ids : ℕ → BitVec 16} {c c' : Context} (hc : K (pass.prepare m patches c))
    (h : pass.beginModule file patches m functions ids c = .ok c') : K c' := by
  obtain ⟨mappings,-,h⟩ := bind_ok h
  obtain ⟨p₁,hp₁,h⟩ := bind_ok h
  obtain ⟨p₂,hp₂,h⟩ := bind_ok h
  obtain ⟨p₃,hp₃,h⟩ := bind_ok h
  obtain ⟨p₄,hp₄,h⟩ := bind_ok h
  have h₁ : K p₁.context := atAddress_preserves (fun _ => insertForkserver_preserves hK hc) hc hp₁
  have h₂ : K p₂.context :=
    foldlM_preserves (K := fun p => K p.context) (fun _ _ _ hp => instrumentFunction_preserves hK hp) h₁ hp₂
  have h₃ : K p₃.context := by
    unfold AddAfl.persistAtAddress at hp₃
    split at hp₃
    · cases hp₃
      exact h₂
    · exact atAddress_preserves (fun _ => insertPersistentMode_preserves hK h₂) h₂ hp₃
  have h₄ : K p₄.context := atAddress_preserves (fun place => hK _ place _ .hook h₃) h₃ hp₄
  obtain ⟨-,rfl,-⟩ := finish_ok h
  exact h₄

end Preserves

theorem inserts_rodataSize {pass : AddAfl} {patch : Patch} (h : pass.Inserts patch) : patch.rodataSize = 0 := by
  cases h <;> rfl

/-- The read-only data gets the data of the modes, and the padding that follows from the number kept
with the patches. -/
theorem main_rodataSize {read : ℕ → String → Result ℤ} {o : Options} {patches : List (String × String)}
    {addedBytes : String} {m now : Module} {functions : List Function} {ids : ℕ → BitVec 16} {c : Context}
    (h : main read o patches addedBytes m now functions ids = .ok c) :
    ∃ args n, getArgs read o = .ok args ∧ read 10 addedBytes = .ok n ∧ c.rodataSize =
      (globalData args.isPersistent args.isDeferred args.isSharedmemFuzzing).rodataSize + calcAlignment 16 n := by
  obtain ⟨args,hargs,h⟩ := bind_ok h
  obtain ⟨n,hn,h⟩ := bind_ok h
  obtain ⟨c',hc',h⟩ := bind_ok h
  cases h
  refine ⟨args,n,hargs,hn,?_⟩
  have hkeep : ∀ (c : Context) place patch, (AddAfl.ofArgs args).Inserts patch →
      c.rodataSize = (globalData args.isPersistent args.isDeferred args.isSharedmemFuzzing).rodataSize →
      (c.insert place patch).rodataSize =
        (globalData args.isPersistent args.isDeferred args.isSharedmemFuzzing).rodataSize := by
    intro c place patch hpatch hc
    rw [insert_rodataSize, inserts_rodataSize hpatch, hc, Int.add_zero]
  have hstart : ((AddAfl.ofArgs args).prepare now patches (addGlobalData m args .empty)).rodataSize =
      (globalData args.isPersistent args.isDeferred args.isSharedmemFuzzing).rodataSize := by
    rw [Context.rodataSize, prepare_insertions]
    simp [addGlobalData, Context.empty, Patch.rodataSize]
  rw [insert_rodataSize, beginModule_preserves hkeep hstart hc']
  rfl

theorem globalData_aligned (isPersistent isDeferred isSharedmemFuzzing : Bool) :
    16 ∣ (globalData isPersistent isDeferred isSharedmemFuzzing).rodataSize := by
  cases isPersistent <;> cases isDeferred <;> cases isSharedmemFuzzing <;> decide

theorem calcAlignment_aligned (alignment n : ℤ) : alignment ∣ n + calcAlignment alignment n :=
  ⟨n / alignment + 1,by rw [calcAlignment]; ring⟩

end Pear.Rewriting

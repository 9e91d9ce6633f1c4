import ShaderCompose.Proofs.Library.Closed
import ShaderCompose.Proofs.Library.Faithful
import ShaderCompose.Proofs.Library.Sourced

/-!
The bases of a loaded class are loaded under their keys.
-/

namespace ShaderCompose

open List Loading

def ModuleKey.IsMixin (key : ModuleKey) : Prop := ∃ refs macros, key = mixinKey refs macros

namespace Loading

def Offers (s : Loading) (key : ModuleKey) (m : Module) : Prop :=
  ∃ c : LoadedClass, c.module = m ∧ (s.loaded.lookup key = some c ∨ s.library.cached? key = some c)

structure Joined (s : Loading) : Prop where
  agree : ∀ key c d, s.loaded.lookup key = some c → s.library.cached? key = some d → key.IsMixin ∨ c.module = d.module
  bases : ∀ e ∈ s.loaded, List.Forall₂ (fun k b => k.IsMixin ∨ s.Offers k b) e.2.baseKeys e.2.module.bases

namespace Joined

variable {s t : Loading}

theorem same_classes (h : s.Joined) (hcache : t.library.cache = s.library.cache)
    (hloaded : t.loaded = s.loaded) : t.Joined := by
  obtain ⟨agree, bases⟩ := h
  unfold Loading.Offers Library.cached? at bases
  unfold Library.cached? at agree
  rw [← hcache, ← hloaded] at agree bases
  exact ⟨agree, bases⟩

variable {key : ModuleKey} {c : LoadedClass}

theorem add (h : s.Joined) (hkey : key.IsMixin ∨ s.loaded.lookup key = none)
    (hagree : ∀ d, s.library.cached? key = some d → key.IsMixin ∨ c.module = d.module)
    (hbases : List.Forall₂ (fun k b => k.IsMixin ∨ s.Offers k b) c.baseKeys c.module.bases) :
    (s.add key c).Joined := by
  have lookup : ∀ k, (s.add key c).loaded.lookup k = if k = key then some c else s.loaded.lookup k :=
    fun k => lookup_setKey key k c s.loaded
  have offers : ∀ k b, k.IsMixin ∨ s.Offers k b → k.IsMixin ∨ (s.add key c).Offers k b := by
    rintro k b (hmixin | ⟨d, rfl, hd⟩)
    · exact .inl hmixin
    · by_cases hk : k = key
      · subst hk
        rcases hkey with hmixin | hnone
        · exact .inl hmixin
        · rw [hnone] at hd
          rcases hd with hd | hd
          · cases hd
          · exact .inr ⟨d, rfl, .inr hd⟩
      · refine .inr ⟨d, rfl, ?_⟩
        rw [lookup, if_neg hk]
        exact hd
  refine ⟨fun k a b ha hb => ?_, fun e he => ?_⟩
  · rw [lookup] at ha
    split at ha
    · next hk =>
      cases ha
      subst hk
      exact hagree b hb
    · exact h.agree k a b ha hb
  · exact List.Forall₂.imp offers (forall_mem_setKey hbases h.bases e he)

theorem keep (h : s.Joined) (hkey : s.loaded.lookup key = none) (hunkept : s.library.cached? key = none) :
    (s.keep key c).Joined := by
  have cached : ∀ k, (s.keep key c).library.cached? k =
      if k = key then some c else s.library.cached? k :=
    fun k => lookup_setKey key k c s.library.cache
  refine ⟨fun k a b ha hb => ?_, fun e he => (h.bases e he).imp fun k b => Or.imp_right ?_⟩
  · rw [cached] at hb
    split at hb
    · next hk =>
      subst hk
      cases ha.symm.trans hkey
    · exact h.agree k a b ha hb
  · rintro ⟨d, rfl, hd | hd⟩
    · exact ⟨d, rfl, .inl hd⟩
    · refine ⟨d, rfl, .inr ?_⟩
      rw [cached, if_neg]
      · exact hd
      · rintro rfl
        cases hd.symm.trans hunkept

theorem offers_of_loaded {keys : List ModuleKey} {bases : List LoadedClass}
    (h : List.Forall₂ (fun k c => s.loaded.lookup k = some c) keys bases) :
    List.Forall₂ (fun k b => k.IsMixin ∨ s.Offers k b) keys (bases.map LoadedClass.module) := by
  rw [forall₂_map_right_iff]
  exact h.imp fun k c hk => .inr ⟨c, rfl, .inl hk⟩

theorem offers_of_kept (hgrounded : s.library.Grounded) (hc : s.library.cached? key = some c) :
    List.Forall₂ (fun k b => k.IsMixin ∨ s.Offers k b) c.baseKeys c.module.bases := by
  have hbases := hgrounded.bases _ (mem_of_lookup hc)
  generalize c.baseKeys = keys, c.module.bases = bases at hbases
  induction keys generalizing bases with
  | nil =>
    obtain rfl : bases = [] := by simpa using hbases
    exact .nil
  | cons k keys ih =>
    cases bases with
    | nil => cases hbases
    | cons b bases =>
      rw [map_cons, map_cons, List.cons.injEq] at hbases
      obtain ⟨d, hd, rfl⟩ := Option.map_eq_some_iff.mp hbases.1
      exact .cons (.inr ⟨d, rfl, .inr hd⟩) (ih bases hbases.2)

theorem finish (h : s.Joined) {plan : LoadPlan} {read : ReadClass}
    {bases : List LoadedClass} (fresh : s.loaded.lookup key = none)
    (unkept : s.library.cached? key = none)
    (hbases : List.Forall₂ (fun k c => s.loaded.lookup k = some c) (baseKeysOf read.cls plan.macros)
      bases) : (finishClass plan key read bases s).2.Joined := by
  generalize hmade : madeClass plan key read bases s.library.next = made
  have hkeys : made.baseKeys = baseKeysOf read.cls plan.macros := by rw [← hmade]; rfl
  have hmodules : made.module.bases = bases.map LoadedClass.module := by rw [← hmade]; rfl
  have hnumber : (s.await made.slotKeys).takeNumber.Joined := h.same_classes rfl rfl
  rcases finishClass_cases plan read bases unkept hmade with heq | ⟨-, heq⟩
  · rw [heq]
    refine hnumber.add (.inr fresh) (fun d hd => ?_) ?_
    · cases unkept.symm.trans hd
    · rw [hkeys, hmodules]
      exact offers_of_loaded hbases
  · rw [heq]
    have hkept : ((s.await made.slotKeys).takeNumber.keep key made).Joined := hnumber.keep fresh unkept
    refine hkept.add (.inr fresh) (fun d hd => .inr ?_) ?_
    · have hself := lookup_setKey key key made s.library.cache
      rw [if_pos rfl] at hself
      exact congrArg _ (Option.some.inj (hself.symm.trans hd))
    · rw [hkeys, hmodules]
      exact offers_of_loaded hbases

end Joined

end Loading

theorem joined_invariant (macros : List MacroDef) (fill : Bool) (bound : Nat) :
    RequestInvariant (.quiet macros fill) bound (fun key => key.macros = macros) (fun _ _ => True)
      (fun s => s.Sound [] macros ∧ s.Joined) := by
  have sound := sound_invariant (.quiet macros fill) bound []
  exact {
    cyclic := fun s key hP hcycle h => ⟨sound.cyclic s key hP hcycle h.1, h.2.same_classes rfl rfl⟩
    empty := fun s h => ⟨sound.empty s h.1, h.2.same_classes rfl rfl⟩
    giveUp := fun s keys hnodup hP hbound h =>
      ⟨sound.giveUp s keys hnodup hP hbound h.1, h.2.same_classes rfl rfl⟩
    fail := fun s key hP hs hwhy h =>
      ⟨sound.fail s key hP hs (hwhy.mono (fun _ _ hr => hr) fun _ h => h.1) h.1, h.2.same_classes rfl rfl⟩
    await := fun s keys hP h => ⟨sound.await s keys hP h.1, h.2.same_classes rfl rfl⟩
    take := fun s key c hP fresh hc h => by
      have hawait : (s.await c.dependencies).Joined := h.2.same_classes rfl rfl
      refine ⟨sound.take s key c hP fresh hc h.1, hawait.add (.inr fresh) ?_ ?_⟩
      · intro d hd
        exact .inr (congrArg _ (Option.some.inj (hc.symm.trans hd)))
      · exact Loading.Joined.offers_of_kept h.1.grounded hc
    read := fun s key hP fresh hcached h => by
      refine ⟨⟨(sound.read s key hP fresh hcached h.1).1, h.2.same_classes ?_ ?_⟩, fun _ _ => trivial⟩
      · rw [read_quiet_library]
      · exact read_loaded _ _ _
    base := sound.base
    finish := fun s key read bases hP hread fresh unkept hbases h =>
      ⟨sound.finish s key read bases hP hread fresh unkept hbases h.1, h.2.finish fresh unkept hbases⟩
    mixin := fun s refs bases hP hbases h => by
      have hnumber : s.takeNumber.Joined := h.2.same_classes rfl rfl
      have hmixin : (mixinKey refs macros).IsMixin := ⟨refs, macros, rfl⟩
      exact ⟨sound.mixin s refs bases hP hbases h.1, hnumber.add (.inl hmixin)
        (fun _ _ => .inl hmixin) (Loading.Joined.offers_of_loaded hbases)⟩ }

namespace Engine

variable {e : Engine} {r : Request} {macros : List MacroDef}

theorem Reachable.joined (h : e.Reachable) (r : Request) (macros : List MacroDef) : (e.loading r macros).Joined := by
  have hsound := h.sound
  obtain ⟨bound, hbound⟩ := e.library.exists_loadWithin (e.plan r macros) r
  rw [loading, hbound]
  refine (loadWithin_invariant (joined_invariant (macros ++ r.collectMacros) e.options.fillGenerics bound)
    (fun _ hI => hI.1.waiting) ?_ (fun _ _ => rfl) ?_).2
  · intro s rest hsub hI
    exact ⟨{ hI.1 with waiting := fun k hk => hI.1.waiting k (hsub hk) }, hI.2.same_classes rfl rfl⟩
  · refine ⟨.start hsound.grounded hsound.numbered, ⟨?_, ?_⟩⟩
    · intro key c d hc
      cases hc
    · intro entry hentry
      cases hentry

theorem Reachable.base_loaded (h : e.Reachable) (hload : (e.loading r macros).log.hasErrors = false)
    {entry : ModuleKey × LoadedClass} (hentry : entry ∈ (e.loading r macros).loaded) :
    List.Forall₂ (fun k b => k.IsMixin ∨ ∃ c, (e.loading r macros).loaded.lookup k = some c ∧ c.module = b)
      entry.2.baseKeys entry.2.module.bases := by
  have hjoined := h.joined r macros
  have hclosed := (Library.loadBy_closed h.sound.grounded hload).2 entry hentry
  have hkeys : ∀ k ∈ entry.2.baseKeys, ((e.loading r macros).loaded.lookup k).isSome = true :=
    fun k hk => hclosed k (mem_append_left _ hk)
  have hbases := hjoined.bases entry hentry
  refine forall₂_iff_zip.mpr ⟨hbases.length_eq, fun {k b} hkb => ?_⟩
  rcases (forall₂_iff_zip.mp hbases).2 hkb with hmixin | ⟨c, rfl, hc | hc⟩
  · exact .inl hmixin
  · exact .inr ⟨c, hc, rfl⟩
  · obtain ⟨d, hd⟩ := Option.isSome_iff_exists.mp (hkeys k (of_mem_zip hkb).1)
    exact (hjoined.agree k d c hd hc).imp_right fun hsame => ⟨d, hd, hsame⟩

end Engine

end ShaderCompose

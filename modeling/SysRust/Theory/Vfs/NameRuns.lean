import SysRust.Theory.Vfs.Runs

/-!
# Runs with Unique Names

Creating looks a name up first, but with all its bytes, and stores at most 63
of them. Renaming does not look at the new directory at all. As long as a
request does not run into either, the names in every directory are different,
and a lookup has only one child to find.

## Main definitions

* `sessionsFrom`: All runs from a ramdisk whose names meet a condition.
* `UniqueNames`: No directory has two children of one name.

## Theorems

* `named_reachable`: The invariant with different names.
* `names_reachable`: The names in every run of such requests.
* `rename_onto_name`: A renaming that gives two children one name.
-/

namespace SysRust.Vfs

open ChildTree List Option

/-- All runs from `vfs::init` on a ramdisk whose names meet a condition. -/
def sessionsFrom (Ok : List CStr → Prop) : Machine Vfs Request where
  start := fun s => ∃ names supply, Ok names ∧
    Offers { root := 0, nodes := fun _ => none } supply ∧ init names supply = some s
  allows := Allowed
  exec := serve

variable {s : Vfs}

theorem sessionsFrom_mono {Ok Ok' : List CStr → Prop} (h : ∀ names, Ok names → Ok' names)
    (hs : (sessionsFrom Ok).Reachable s) : (sessionsFrom Ok').Reachable s := by
  induction hs with
  | start s hstart =>
    rcases hstart with ⟨names, supply, hok, hinit⟩
    exact Machine.Reachable.start s ⟨names, supply, h names hok, hinit⟩
  | step s t o _ ha he ih => exact Machine.Reachable.step s t o ih ha he

theorem named_reachable (hs : ((sessionsFrom PlainNames).restrict Apart).Reachable s) :
    Inv s ∧ UniqueKids s := by
  refine Machine.Reachable.invariant (M := (sessionsFrom PlainNames).restrict Apart)
    (fun s => Inv s ∧ UniqueKids s) ?_ ?_ hs
  · rintro s ⟨names, supply, hplain, ho, hinit⟩
    rcases init_spec names ho with ⟨t, ht, hinv, hu⟩
    rw [hinit, some.injEq] at ht
    exact ht ▸ ⟨hinv, hu hplain⟩
  · rintro s t o ⟨h, hu⟩ ⟨ha, hc⟩ he
    have hserves := serves_of_serve h ha he
    exact ⟨hserves.inv, hserves.unique hc hu⟩

/-- No directory has two children of one name. -/
def UniqueNames (s : Vfs) : Prop :=
  ∀ d n i j a b, s.nodes d = some n → i < n.numChildren → j < n.numChildren →
    s.nodes (n.children i) = some a → s.nodes (n.children j) = some b → a.name = b.name → i = j

theorem uniqueNames_of_kids (h : Inv s) (hu : UniqueKids s) : UniqueNames s := by
  intro d n i j a b hd hi hj ha hb hab
  have hname : nameAt s (n.children i) = nameAt s (n.children j) := by
    rw [nameAt, ha, nameAt, hb, map_some, map_some, hab]
  have heq := kid_eq_of_name hu (mem_kids_slot hd hi rfl) (mem_kids_slot hd hj rfl) hname
  have hnd := h.nodup d
  rw [kids_some hd] at hnd
  exact inj_on_of_nodup_map hnd (mem_range.mpr hi) (mem_range.mpr hj) heq

/-- What a lookup returns is a child of the name. -/
theorem finddir_name (h : Inv s) {dir c : Ptr} {name : CStr} (hf : finddir s dir name = some c)
    (hc0 : c ≠ 0) : c ∈ kids s dir ∧ nameAt s c = some name := by
  rcases finddir_cases h dir name with hg | ⟨hg, _⟩ | ⟨hg, _⟩
  · rw [hf, some.injEq] at hg
    cases hfind : (kids s dir).find? (fun e => nameAt s e = some name) with
    | none =>
      rw [hfind] at hg
      exact absurd hg hc0
    | some e =>
      have hname := List.find?_some hfind
      rw [hfind] at hg
      rw [hg]
      exact ⟨mem_of_find?_eq_some hfind, of_decide_eq_true hname⟩
  · rw [hf, some.injEq] at hg
    exact absurd hg hc0
  · rw [hf] at hg
    cases hg

/-- In every run of such requests, from a ramdisk with different names none of
    which is `dev`, no directory has two children of one name. So what a
    lookup finds is the only child of that name; and the requests come back. -/
theorem names_reachable {s : Vfs} (hs : ((sessionsFrom PlainNames).restrict Apart).Reachable s) :
    UniqueNames s ∧
      (∀ d name c, finddir s d name = some c → c ≠ 0 →
        c ∈ kids s d ∧ nameAt s c = some name ∧
          ∀ e ∈ kids s d, nameAt s e = some name → e = c) ∧
      ∀ o, Allowed s o → Apart s o → ∃ t, serve s o = some t := by
  rcases named_reachable hs with ⟨h, hu⟩
  refine ⟨uniqueNames_of_kids h hu, fun d name c hf hc0 => ?_, fun o ha hc => ?_⟩
  · rcases finddir_name h hf hc0 with ⟨hc, hname⟩
    exact ⟨hc, hname, fun e he hen => kid_eq_of_name hu he hc (hen.trans hname.symm)⟩
  · rcases serve_spec h ha with ⟨t, ht, _⟩ | ⟨path, x, n, rfl, hx, hn, hfile, _⟩
    · exact ⟨t, ht⟩
    · exact absurd hfile (hc x n hx hn)

/-- Two directories, `/a` and `/b`. -/
def withTwoDirs : Option Vfs :=
  withDir.bind (fun s => serve s (.mkdir 0x1000 (some [98]) [0x7000]))

theorem withTwoDirs_spec : ∃ s, withTwoDirs = some s ∧
    ((sessionsFrom PlainNames).restrict Apart).Reachable s ∧
      kids s 0x1000 = [0x2000, 0x6000, 0x7000] := by
  have hinit : (init [] fiveNodes).map (fun s =>
      (s.root, (s.nodes 0x6000).isNone, (kidNames s 0x1000))) =
      some (0x1000, true, [some nameDev]) := by
    decide
  have hone : withDir.map (fun s => (s.root, (s.nodes 0x7000).isNone, kidNames s 0x1000)) =
      some (0x1000, true, [some nameDev, some [97]]) := by
    decide
  have htwo : withTwoDirs.map (fun s => kids s 0x1000) = some [0x2000, 0x6000, 0x7000] := by
    decide
  rcases map_eq_some_iff.mp hinit with ⟨s0, hs0, hv0⟩
  rcases map_eq_some_iff.mp hone with ⟨s1, hs1, hv1⟩
  rcases map_eq_some_iff.mp htwo with ⟨s2, hs2, hv2⟩
  rw [Prod.mk.injEq, Prod.mk.injEq] at hv0 hv1
  have hoffers : ∀ {s : Vfs} {p : Ptr}, (s.nodes p).isNone = true → Offers s [p] := by
    intro s p hp
    refine ⟨fun f hf _ => ?_, List.Pairwise.filter _ (pairwise_singleton _ _)⟩
    rw [mem_singleton.mp hf]
    exact isNone_iff_eq_none.mp hp
  have hstore : ∀ (s : Vfs) (d : Ptr) (c : UInt8) (nm : CStr), some [c] = some nm →
      Storable s d nm := by
    intro s d c nm hnm _
    rw [← some.inj hnm]
    exact (by decide : 1 ≤ 63)
  refine ⟨s2, hs2, ?_, hv2⟩
  have h0 : ((sessionsFrom PlainNames).restrict Apart).Reachable s0 :=
    Machine.Reachable.start s0 ⟨[], fiveNodes, ⟨nodup_nil, not_mem_nil⟩,
      ⟨fun _ _ _ => rfl, by decide⟩, hs0⟩
  have h1 : ((sessionsFrom PlainNames).restrict Apart).Reachable s1 := by
    rw [withDir, hs0, bind_some] at hs1
    exact Machine.Reachable.step s0 s1 (.mkdir 0x1000 (some [97]) [0x6000]) h0
      ⟨⟨Or.inr (hv0.1 ▸ Below.refl), hoffers hv0.2.1⟩, hstore s0 0x1000 97⟩ hs1
  rw [withTwoDirs, hs1, bind_some] at hs2
  exact Machine.Reachable.step s1 s2 (.mkdir 0x1000 (some [98]) [0x7000]) h1
    ⟨⟨Or.inr (hv1.1 ▸ Below.refl), hoffers hv1.2.1⟩, hstore s1 0x1000 98⟩ hs2

/-- The names below the root with `/a` and `/b`. -/
theorem names_reachable_withTwoDirs : ∃ s, withTwoDirs = some s ∧ UniqueNames s ∧
    kids s 0x1000 = [0x2000, 0x6000, 0x7000] := by
  rcases withTwoDirs_spec with ⟨s, hs, hreach, hkids⟩
  exact ⟨s, hs, (names_reachable hreach).1, hkids⟩

/-- Renaming `/a` to `/b` succeeds and gives the root two children named
    `b`. -/
theorem rename_onto_name :
    ∃ s t, (sessionsFrom Distinct).Reachable s ∧
      serve s (.rename (some [47, 97]) (some [47, 98])) = some t ∧
      kids t 0x1000 = [0x2000, 0x7000, 0x6000] ∧ nameAt t 0x7000 = some [98] ∧
      nameAt t 0x6000 = some [98] ∧ ¬ UniqueNames t := by
  rcases withTwoDirs_spec with ⟨s, hs, hreach, _⟩
  have heval : (withTwoDirs.bind (fun s =>
      serve s (.rename (some [47, 97]) (some [47, 98])))).map (fun t =>
        (kids t 0x1000, nameAt t 0x7000, nameAt t 0x6000)) =
      some ([0x2000, 0x7000, 0x6000], some [98], some [98]) := by
    decide +kernel
  rcases map_eq_some_iff.mp heval with ⟨t, ht, hv⟩
  rw [Prod.mk.injEq, Prod.mk.injEq] at hv
  rw [hs, bind_some] at ht
  refine ⟨s, t, sessionsFrom_mono (fun _ hplain => hplain.1) (Machine.Reachable.of_restrict hreach),
    ht, hv.1, hv.2.1, hv.2.2, fun hunique => ?_⟩
  rcases mem_kids.mp (show 0x7000 ∈ kids t 0x1000 by rw [hv.1]; decide) with ⟨n, i, hn, hi, hci⟩
  rcases mem_kids.mp (show 0x6000 ∈ kids t 0x1000 by rw [hv.1]; decide) with ⟨m, j, hm, hj, hcj⟩
  rw [hn, some.injEq] at hm
  rw [← hm] at hj hcj
  rcases map_eq_some_iff.mp hv.2.1 with ⟨a, ha, han⟩
  rcases map_eq_some_iff.mp hv.2.2 with ⟨b, hb, hbn⟩
  have hij := hunique 0x1000 n i j a b hn hi hj (by rw [hci]; exact ha) (by rw [hcj]; exact hb)
    (han.trans hbn.symm)
  rw [hij, hcj] at hci
  exact absurd hci (by decide)

end SysRust.Vfs

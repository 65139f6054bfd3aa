/-
How many pages a load takes from its buffers.

Every page of the two buffers that is in use is a page table or is mapped.  A
request takes a page exactly when a table is missing or its page number is not
mapped, so the number of pages in use together with the number of those still
missing stays the same through a run.

* `Request.page`, `Request.draws` — the page number a request is about;
* `unmapped`, `apply_balance` — pages in use and pages still missing;
* `run_used` — the pages in use after a run;
* `loadPages`, **`load_inBuffers_iff`** — the load sequence stays inside its
  buffers exactly when they have a page for every table and every page number.
-/
import KeystoneSdk.LoadedRegions
import KeystoneSdk.LoadedImage
import KeystoneSdk.UntrustedPages

open ByteMemory StopM

namespace KeystoneSdk

namespace Request

/-- The page number a request walks to. -/
def page : Request → Option ℕ
  | walk va => some (vpn va)
  | alloc va _ _ _ => some (vpn va)
  | stop _ => none

/-- The page number a request takes a page for from a free list, unless it is
mapped. -/
def draws (l : FreeList) : Request → Option ℕ
  | alloc va l' _ _ => if l' = l then some (vpn va) else none
  | _ => none

end Request

namespace AddressSpace

/-- How many pages of a free list are in use. -/
def used (a : AddressSpace) : FreeList → ℕ
  | .epm => a.epmUsed
  | .utm => a.utmUsed

/-- How many of the page numbers `W` are not mapped. -/
def unmapped (a : AddressSpace) (W : Finset ℕ) : ℕ := (W.filter fun v => a.leaf v = none).card

section Balance

variable {a b : AddressSpace} {v : ℕ} {V W : Finset ℕ}

theorem unmapped_congr (h : b.leaf = a.leaf) : b.unmapped W = a.unmapped W := by
  rw [unmapped, unmapped, h]

theorem lacking_congr (h : b.tab = a.tab) : b.lacking V = a.lacking V := by
  rw [lacking, lacking, lackingAt, lackingAt, lackingAt, lackingAt, h]

/-- A page number is mapped with a page of the free list, and is no longer
missing. -/
theorem unmapped_of_new (hv : v ∈ W) (hnone : a.leaf v = none) (hsome : (b.leaf v).isSome)
    (hother : ∀ v', v' ≠ v → b.leaf v' = a.leaf v') : b.unmapped W + 1 = a.unmapped W := by
  have hmem : v ∈ W.filter fun v' => a.leaf v' = none := Finset.mem_filter.mpr ⟨hv, hnone⟩
  have hnew : (W.filter fun v' => b.leaf v' = none) =
      (W.filter fun v' => a.leaf v' = none).erase v := by
    ext v'
    rw [Finset.mem_erase, Finset.mem_filter, Finset.mem_filter]
    by_cases hvv : v' = v
    · subst hvv
      simp only [ne_eq, not_true_eq_false, false_and, iff_false, not_and]
      intro _ hb
      rw [hb] at hsome
      cases hsome
    · rw [hother v' hvv]
      simp [hvv]
  have hpos := Finset.card_pos.mpr ⟨v, hmem⟩
  rw [unmapped, unmapped, hnew, Finset.card_erase_of_mem hmem]
  omega

theorem unmapped_of_not_mem (hv : v ∉ W) (hother : ∀ v', v' ≠ v → b.leaf v' = a.leaf v') :
    b.unmapped W = a.unmapped W := by
  rw [unmapped, unmapped]
  congr 1
  refine Finset.filter_congr fun v' hv' => ?_
  rw [hother v' fun he => hv (he ▸ hv')]

variable {l : FreeList} {src : HostPtr} {mode : BitVec 32} {flags : BitVec 64}

/-- `place` takes a page from its free list exactly when its page number was
missing. -/
theorem place_balance {W : FreeList → Finset ℕ} (hW : ∀ l', v ∈ W l' ↔ l' = l) (l' : FreeList) :
    (a.place v l src mode flags).2.used l' + (a.place v l src mode flags).2.unmapped (W l') =
      a.used l' + a.unmapped (W l') := by
  have hother : ∀ v', v' ≠ v → (a.place v l src mode flags).2.leaf v' = a.leaf v' :=
    fun v' hne => place_leaf_of_ne hne l src mode flags
  obtain ⟨hepm, hutm⟩ := @place_used a v l src mode flags
  rcases hl : a.leaf v with _ | lf
  · rw [hl, if_neg (by simp)] at hepm hutm
    by_cases hll : l' = l
    · -- the page comes from this list
      subst hll
      have hsome : ((a.place v l' src mode flags).2.leaf v).isSome := by
        obtain ⟨lf, hlf, -⟩ := place_leaf_self hl l' src mode flags
        rw [hlf]
        rfl
      have hnew := unmapped_of_new ((hW l').mpr rfl) hl hsome hother
      cases l' with
      | epm =>
        have hused : (a.place v .epm src mode flags).2.epmUsed = a.epmUsed + 1 := hepm
        show (a.place v .epm src mode flags).2.epmUsed + _ = a.epmUsed + _
        omega
      | utm =>
        have hused : (a.place v .utm src mode flags).2.utmUsed = a.utmUsed + 1 := hutm
        show (a.place v .utm src mode flags).2.utmUsed + _ = a.utmUsed + _
        omega
    · rw [unmapped_of_not_mem (fun hv => hll ((hW l').mp hv)) hother]
      congr 1
      cases l' <;> cases l
      · exact absurd rfl hll
      · exact hepm
      · exact hutm
      · exact absurd rfl hll
  · rw [place_mapped hl]

theorem touch_used_utm (v : ℕ) : (a.touch v).used .utm = a.used .utm := touch_utmUsed v

variable {W : FreeList → Finset ℕ} {r : Request}

/-- **One request**: what it takes from the free lists is no longer missing.
Page tables come from the EPM. -/
theorem apply_balance (hv : r.Valid) (hp : ∀ v, r.page = some v → v ∈ V)
    (hd : ∀ l v, r.draws l = some v → ∀ l', v ∈ W l' ↔ l' = l) (a : AddressSpace) :
    (exec r.apply a).2.epmUsed + (exec r.apply a).2.lacking V +
          (exec r.apply a).2.unmapped (W .epm) =
        a.epmUsed + a.lacking V + a.unmapped (W .epm) ∧
      (exec r.apply a).2.utmUsed + (exec r.apply a).2.unmapped (W .utm) =
        a.utmUsed + a.unmapped (W .utm) := by
  cases r with
  | stop reason => exact ⟨rfl, rfl⟩
  | walk va =>
    have htouch := touch_lacking (a := a) (hp (vpn va) rfl)
    have hleaf : ∀ X, (a.touch (vpn va)).unmapped X = a.unmapped X :=
      fun X => unmapped_congr (touch_leaf _)
    show (a.touch (vpn va)).epmUsed + (a.touch (vpn va)).lacking V + (a.touch (vpn va)).unmapped _ = _ ∧
      (a.touch (vpn va)).utmUsed + (a.touch (vpn va)).unmapped _ = _
    rw [hleaf, hleaf, touch_utmUsed, htouch]
    exact ⟨rfl, rfl⟩
  | alloc va l src mode =>
    obtain ⟨flags, hf⟩ := Option.isSome_iff_exists.mp hv
    have htouch := touch_lacking (a := a) (hp (vpn va) rfl)
    have hleaf : ∀ X, (a.touch (vpn va)).unmapped X = a.unmapped X :=
      fun X => unmapped_congr (touch_leaf _)
    have hW := hd l (vpn va) (if_pos rfl)
    -- the walk balances the tables, and the page is balanced on the list it is taken from
    have hplace : ∀ l',
        ((a.touch (vpn va)).place (vpn va) l src mode flags).2.used l' +
            ((a.touch (vpn va)).place (vpn va) l src mode flags).2.unmapped (W l') =
          (a.touch (vpn va)).used l' + (a.touch (vpn va)).unmapped (W l') :=
      place_balance hW
    have hlack : ((a.touch (vpn va)).place (vpn va) l src mode flags).2.lacking V =
        (a.touch (vpn va)).lacking V :=
      lacking_congr (funext fun h => funext fun q => place_tab h q l src mode flags)
    have hepm := hplace .epm
    have hutm := hplace .utm
    rw [hleaf] at hepm hutm
    rw [touch_used_utm] at hutm
    rw [exec_apply_alloc a va l src hf, hlack]
    simp only [used] at hepm hutm
    exact ⟨by omega, hutm⟩

end Balance

/-! ### Runs -/

section Run

variable {a : AddressSpace} {V : Finset ℕ} {W : FreeList → Finset ℕ} {rs : List Request}

theorem run_balance (hv : ∀ r ∈ rs, r.Valid) (hp : ∀ r ∈ rs, ∀ v, r.page = some v → v ∈ V)
    (hd : ∀ r ∈ rs, ∀ l v, r.draws l = some v → ∀ l', v ∈ W l' ↔ l' = l) (a : AddressSpace) :
    (exec (forM rs Request.apply) a).2.epmUsed + (exec (forM rs Request.apply) a).2.lacking V +
          (exec (forM rs Request.apply) a).2.unmapped (W .epm) =
        a.epmUsed + a.lacking V + a.unmapped (W .epm) ∧
      (exec (forM rs Request.apply) a).2.utmUsed +
          (exec (forM rs Request.apply) a).2.unmapped (W .utm) =
        a.utmUsed + a.unmapped (W .utm) :=
  forM_preserves (P := fun b : AddressSpace =>
      b.epmUsed + b.lacking V + b.unmapped (W .epm) =
          a.epmUsed + a.lacking V + a.unmapped (W .epm) ∧
        b.utmUsed + b.unmapped (W .utm) = a.utmUsed + a.unmapped (W .utm)) rs
    (fun r hr b hb => by
      obtain ⟨hepm, hutm⟩ := apply_balance (hv r hr) (hp r hr) (hd r hr) b
      exact ⟨hepm.trans hb.1, hutm.trans hb.2⟩)
    ⟨rfl, rfl⟩

/-- What one step of a list establishes and all keep, holds at its end. -/
theorem forM_establishes {P : AddressSpace → Prop} (hv : ∀ r ∈ rs, r.Valid)
    (hr : ∀ r ∈ rs, r.Returns) {r : Request} (hmem : r ∈ rs)
    (hset : ∀ a, P (exec r.apply a).2) (hkeep : ∀ r ∈ rs, ∀ a, P a → P (exec r.apply a).2)
    (a : AddressSpace) : P (exec (forM rs Request.apply) a).2 := by
  obtain ⟨before, after, rfl⟩ := List.append_of_mem hmem
  have hbefore := run_returns (fun r h => hv r (List.mem_append_left _ h))
    (fun r h => hr r (List.mem_append_left _ h)) a
  rcases hx : exec (forM before Request.apply) a with ⟨x, b⟩
  rw [hx] at hbefore
  obtain rfl : x = .ok ⟨⟩ := hbefore
  have hstep := apply_returns (hv r hmem) (hr r hmem) b
  have hP := hset b
  rcases hy : exec r.apply b with ⟨y, c⟩
  rw [hy] at hstep hP
  obtain rfl : y = .ok ⟨⟩ := hstep
  rw [forM_append, exec_bind_ok hx, List.forM_cons, exec_bind_ok hy]
  exact forM_preserves after (fun r h a ha =>
    hkeep r (List.mem_append_right _ (List.mem_cons_of_mem _ h)) a ha) hP

theorem apply_tables {r : Request} (hv : r.Valid) {v : ℕ} (hp : r.page = some v)
    (a : AddressSpace) : ((exec r.apply a).2.tab 1 (v / 262144)).isSome ∧
      ((exec r.apply a).2.tab 0 (v / 512)).isSome := by
  have htouch : ((a.touch v).tab 1 (v / 262144)).isSome ∧ ((a.touch v).tab 0 (v / 512)).isSome := by
    obtain ⟨k, hk⟩ := ensureTable_tab_self (a := a) 1 (v / 262144)
    obtain ⟨k', hk'⟩ := touch_tab_zero (a := a) v
    have hk₁ : (a.touch v).tab 1 (v / 262144) = some k := ensureTable_tab_mono hk
    rw [hk₁, hk']
    exact ⟨rfl, rfl⟩
  cases r with
  | stop reason => cases hp
  | walk va =>
    cases hp
    exact htouch
  | alloc va l src mode =>
    cases hp
    obtain ⟨flags, hf⟩ := Option.isSome_iff_exists.mp hv
    rw [exec_apply_alloc a va l src hf, place_tab, place_tab]
    exact htouch

theorem apply_draws {r : Request} (hv : r.Valid) {l : FreeList} {v : ℕ} (hd : r.draws l = some v)
    (a : AddressSpace) : ((exec r.apply a).2.leaf v).isSome := by
  cases r with
  | stop reason => cases hd
  | walk va => cases hd
  | alloc va l' src mode =>
    rw [Request.draws] at hd
    split at hd
    · cases hd
      obtain ⟨flags, hf⟩ := Option.isSome_iff_exists.mp hv
      rw [exec_apply_alloc a va l' src hf]
      rcases hl : (a.touch (vpn va)).leaf (vpn va) with _ | lf
      · obtain ⟨lf, hlf, -⟩ := place_leaf_self hl l' src mode flags
        rw [hlf]
        rfl
      · rw [place_mapped hl, hl]
        rfl
    · cases hd

/-- After a run that returned no page it was asked for lacks a table. -/
theorem run_lacking (hv : ∀ r ∈ rs, r.Valid) (hr : ∀ r ∈ rs, r.Returns)
    (hV : ∀ v ∈ V, ∃ r ∈ rs, r.page = some v) (a : AddressSpace) :
    (exec (forM rs Request.apply) a).2.lacking V = 0 := by
  have htab : ∀ v ∈ V, ((exec (forM rs Request.apply) a).2.tab 1 (v / 262144)).isSome ∧
      ((exec (forM rs Request.apply) a).2.tab 0 (v / 512)).isSome := by
    intro v hvV
    obtain ⟨r, hmem, hp⟩ := hV v hvV
    refine forM_establishes (P := fun b : AddressSpace => (b.tab 1 (v / 262144)).isSome ∧
      (b.tab 0 (v / 512)).isSome) hv hr hmem (apply_tables (hv r hmem) hp) ?_ a
    rintro r' hr' b ⟨h1, h0⟩
    obtain ⟨k, hk⟩ := Option.isSome_iff_exists.mp h1
    obtain ⟨k', hk'⟩ := Option.isSome_iff_exists.mp h0
    rw [apply_tab_mono (hv r' hr') hk, apply_tab_mono (hv r' hr') hk']
    exact ⟨rfl, rfl⟩
  rw [lacking, lackingAt, lackingAt, Nat.add_eq_zero_iff, Finset.card_eq_zero, Finset.card_eq_zero,
    Finset.filter_eq_empty_iff, Finset.filter_eq_empty_iff]
  constructor
  · intro q hq hnone
    obtain ⟨v, hv, rfl⟩ := Finset.mem_image.mp hq
    have hsome := (htab v hv).2
    rw [hnone] at hsome
    cases hsome
  · intro q hq hnone
    obtain ⟨v, hv, rfl⟩ := Finset.mem_image.mp hq
    have hsome := (htab v hv).1
    rw [hnone] at hsome
    cases hsome

/-- After a run that returned every page number it drew a page for is mapped. -/
theorem run_unmapped (hv : ∀ r ∈ rs, r.Valid) (hr : ∀ r ∈ rs, r.Returns) {X : Finset ℕ}
    (hX : ∀ v ∈ X, ∃ r ∈ rs, ∃ l, r.draws l = some v) (a : AddressSpace) :
    (exec (forM rs Request.apply) a).2.unmapped X = 0 := by
  rw [unmapped, Finset.card_eq_zero, Finset.filter_eq_empty_iff]
  intro v hvX hnone
  obtain ⟨r, hmem, l, hd⟩ := hX v hvX
  have hsome := forM_establishes (P := fun b : AddressSpace => (b.leaf v).isSome) hv hr hmem
    (apply_draws (hv r hmem) hd)
    (fun r' hr' b hb => by
      obtain ⟨lf, hl⟩ := Option.isSome_iff_exists.mp hb
      rw [apply_leaf_mono (hv r' hr') hl]
      rfl) a
  rw [hnone] at hsome
  cases hsome

/-- Page numbers no request draws a page for stay unmapped. -/
theorem run_not_drawn (hv : ∀ r ∈ rs, r.Valid) {v : ℕ}
    (hd : ∀ r ∈ rs, ∀ l, r.draws l ≠ some v) {a : AddressSpace} (hnone : a.leaf v = none) :
    (exec (forM rs Request.apply) a).2.leaf v = none := by
  refine run_leaf_none hv (fun r hr => ?_) hnone
  cases r with
  | walk va => rfl
  | stop reason => rfl
  | alloc va l src mode =>
    refine if_neg fun hva => hd _ hr l ?_
    rw [← hva]
    exact if_pos rfl

end Run

/-- The page numbers that `es` and `us` walk to, those `es` draws EPM pages for,
and those `us` draws UTM pages for. -/
structure Asked (es us : List Request) (V E U : Finset ℕ) : Prop where
  valid : ∀ r ∈ es ++ us, r.Valid
  returns : ∀ r ∈ es ++ us, r.Returns
  page : ∀ v, v ∈ V ↔ ∃ r ∈ es ++ us, r.page = some v
  epm : ∀ r ∈ es, r.draws .utm = none
  utm : ∀ r ∈ us, r.draws .epm = none
  epmPage : ∀ v, v ∈ E ↔ ∃ r ∈ es, r.draws .epm = some v
  utmPage : ∀ v, v ∈ U ↔ ∃ r ∈ us, r.draws .utm = some v

theorem empty_lacking (V : Finset ℕ) :
    empty.lacking V = (V.image (· / 512)).card + (V.image (· / 262144)).card := by
  have htab : ∀ h q, h < 2 → empty.tab h q = none := fun h q hh => if_neg fun hc => by omega
  rw [lacking, lackingAt, lackingAt, Finset.filter_true_of_mem fun q _ => htab 0 q (by decide),
    Finset.filter_true_of_mem fun q _ => htab 1 q (by decide)]

theorem empty_unmapped (W : Finset ℕ) : empty.unmapped W = W.card := by
  have hall : (W.filter fun v => empty.leaf v = none) = W :=
    Finset.filter_true_of_mem fun v _ => rfl
  rw [unmapped, hall]

/-- Pages `X` for one free list, and none for the other. -/
def only (l : FreeList) (X : Finset ℕ) (l' : FreeList) : Finset ℕ := if l' = l then X else ∅

theorem mem_only {l l' : FreeList} {X : Finset ℕ} {v : ℕ} (hv : v ∈ X) :
    v ∈ only l X l' ↔ l' = l := by
  rw [only]
  split
  · exact ⟨fun _ => ‹_›, fun _ => hv⟩
  · exact ⟨fun h => absurd h (Finset.notMem_empty v), fun h => absurd h ‹_›⟩

/-- **The pages in use after a run**: the root, the tables of all page numbers
that were asked for, and a page for each one that is mapped.  A page number that
both buffers are asked for has a page of the EPM. -/
theorem run_used {es us : List Request} {V E U : Finset ℕ} (h : Asked es us V E U) :
    (exec (forM (es ++ us) Request.apply) empty).2.epmUsed =
        1 + (V.image (· / 512)).card + (V.image (· / 262144)).card + E.card ∧
      (exec (forM (es ++ us) Request.apply) empty).2.utmUsed = (U \ E).card := by
  have hvalid : ∀ r ∈ es, r.Valid := fun r hr => h.valid r (List.mem_append_left _ hr)
  have hreturns : ∀ r ∈ es, r.Returns := fun r hr => h.returns r (List.mem_append_left _ hr)
  have hvalid' : ∀ r ∈ us, r.Valid := fun r hr => h.valid r (List.mem_append_right _ hr)
  have hpage : ∀ r ∈ es ++ us, ∀ v, r.page = some v → v ∈ V :=
    fun r hr v hp => (h.page v).mpr ⟨r, hr, hp⟩
  have hlack := run_lacking h.valid h.returns (fun v hv => (h.page v).mp hv) empty
  have hlast : (exec (forM (es ++ us) Request.apply) empty).2.unmapped U = 0 := by
    refine run_unmapped h.valid h.returns (fun v hv => ?_) empty
    obtain ⟨r, hr, hd⟩ := (h.utmPage v).mp hv
    exact ⟨r, List.mem_append_right _ hr, .utm, hd⟩
  -- the requests for EPM pages
  obtain ⟨hepm, hutm⟩ := run_balance (V := V) (W := only .epm E) hvalid
    (fun r hr => hpage r (List.mem_append_left _ hr))
    (fun r hr l v hd l' => by
      cases l with
      | epm => exact mem_only ((h.epmPage v).mpr ⟨r, hr, hd⟩)
      | utm =>
        rw [h.epm r hr] at hd
        cases hd) empty
  have hmapped : (exec (forM es Request.apply) empty).2.unmapped E = 0 := by
    refine run_unmapped hvalid hreturns (fun v hv => ?_) empty
    obtain ⟨r, hr, hd⟩ := (h.epmPage v).mp hv
    exact ⟨r, hr, .epm, hd⟩
  have hleft : (exec (forM es Request.apply) empty).2.unmapped U = (U \ E).card := by
    rw [unmapped]
    congr 1
    ext v
    rw [Finset.mem_filter, Finset.mem_sdiff]
    refine and_congr_right fun _ => ⟨fun hnone hv => ?_, fun hv => ?_⟩
    · rw [unmapped, Finset.card_eq_zero, Finset.filter_eq_empty_iff] at hmapped
      exact hmapped hv hnone
    · refine run_not_drawn hvalid (fun r hr l hd => ?_) rfl
      cases l with
      | epm => exact hv ((h.epmPage v).mpr ⟨r, hr, hd⟩)
      | utm =>
        rw [h.epm r hr] at hd
        cases hd
  have hok := run_returns hvalid hreturns empty
  rcases hx : exec (forM es Request.apply) empty with ⟨x, b⟩
  rw [hx] at hok hepm hutm hmapped hleft
  obtain rfl : x = .ok ⟨⟩ := hok
  rw [forM_append, exec_bind_ok hx] at hlack hlast ⊢
  -- the requests for UTM pages
  obtain ⟨hepm', hutm'⟩ := run_balance (V := V) (W := only .utm U) hvalid'
    (fun r hr => hpage r (List.mem_append_right _ hr))
    (fun r hr l v hd l' => by
      cases l with
      | utm => exact mem_only ((h.utmPage v).mpr ⟨r, hr, hd⟩)
      | epm =>
        rw [h.utm r hr] at hd
        cases hd) b
  have hnothing : ∀ c : AddressSpace, c.unmapped ∅ = 0 := fun c => rfl
  have hone : empty.epmUsed = 1 := rfl
  have hzero : empty.utmUsed = 0 := rfl
  simp only [only, reduceCtorEq, if_true, if_false, hnothing, empty_lacking, empty_unmapped]
    at hepm hutm hepm' hutm' hmapped hleft
  exact ⟨by omega, by omega⟩

end AddressSpace

/-! ### The requests of the load sequence -/

/-- An image of page-aligned segments that lie in the file and end below the top
of the address space. -/
structure ELFFile.Loadable (elf : ELFFile) : Prop where
  ends : ∀ ph ∈ elf.loads, ph.Ends
  inFile : ∀ ph ∈ elf.loads, ph.InFile elf.file
  aligned : ∀ ph ∈ elf.loads, ph.pageOffset = 0

/-- The page numbers of an image. -/
def ELFFile.imagePages (elf : ELFFile) : Finset ℕ := (elf.segmentPages.map pageNumber).toFinset

/-- The page numbers `loadELF` creates page tables for. -/
def ELFFile.reservedPages (elf : ELFFile) : Finset ℕ :=
  (Finset.range elf.vspacePages).image fun i => vpn (elf.minVaddr + BitVec.ofNat 64 (i * 4096))

/-- The page numbers of the stack. -/
def stackPages : Finset ℕ :=
  (Finset.range 32).image fun i => (4194272 + i) % 2 ^ 27

/-- The rounded range ends below the top of the address space. -/
def RangeEnds (range : BitVec 64 × BitVec 64) : Prop :=
  range.1.toNat + range.2.toNat + 4095 < 2 ^ 64

section Producers

theorem vspaceRequests_page (n : ℕ) (va : Vaddr) (v : ℕ) :
    (∃ r ∈ vspaceRequests n va, r.page = some v) ↔
      ∃ i < n, vpn (va + BitVec.ofNat 64 (i * 4096)) = v := by
  induction n generalizing va with
  | zero =>
    constructor
    · rintro ⟨r, hr, -⟩
      cases hr
    · rintro ⟨i, hi, -⟩
      exact absurd hi (Nat.not_lt_zero i)
  | succ n ih =>
    have hnext : ∀ i, va + BitVec.ofNat 64 ((i + 1) * 4096) =
        va + pageSize + BitVec.ofNat 64 (i * 4096) := by
      intro i
      rw [BitVec.add_assoc, pageSize_eq, ← BitVec.ofNat_add, Nat.succ_mul, Nat.add_comm]
    constructor
    · rintro ⟨r, hr, hp⟩
      rcases List.mem_cons.mp hr with rfl | hr
      · cases hp
        exact ⟨0, Nat.succ_pos n, by simp⟩
      · obtain ⟨i, hi, rfl⟩ := (ih _).mp ⟨r, hr, hp⟩
        exact ⟨i + 1, by omega, by rw [hnext i]⟩
    · rintro ⟨i, hi, rfl⟩
      cases i with
      | zero => exact ⟨_, List.mem_cons_self, by simp [Request.page]⟩
      | succ i =>
        obtain ⟨r, hr, hp⟩ := (ih (va + pageSize)).mpr
          ⟨i, by omega, congrArg vpn (hnext i).symm⟩
        exact ⟨r, List.mem_cons_of_mem _ hr, hp⟩

theorem vspaceRequests_draws (n : ℕ) (va : Vaddr) (l : FreeList) :
    ∀ r ∈ vspaceRequests n va, r.draws l = none := by
  induction n generalizing va with
  | zero => rintro r ⟨⟩
  | succ n ih =>
    rintro r (_ | ⟨_, hr⟩)
    · rfl
    · exact ih _ r hr

/-- Allocations of consecutive pages. -/
def allocRun (l : FreeList) (mode : BitVec 32) (p k : ℕ) : List Request :=
  (List.range k).map fun i => .alloc (frameAddr (p + i) 0) l nullpage mode

theorem allocRun_cons (l : FreeList) (mode : BitVec 32) (p k : ℕ) :
    allocRun l mode p (k + 1) = .alloc (frameAddr p 0) l nullpage mode :: allocRun l mode (p + 1) k := by
  have hrest : ∀ i ∈ List.range k, Request.alloc (frameAddr (p + (i + 1)) 0) l nullpage mode =
      .alloc (frameAddr (p + 1 + i) 0) l nullpage mode := by
    intro i _
    rw [Nat.add_comm i 1, Nat.add_assoc]
  rw [allocRun, List.range_succ_eq_map, List.map_cons, List.map_map, allocRun,
    ← List.map_congr_left hrest]
  rfl

theorem stackLoopRequests_eq (n p : ℕ) :
    stackLoopRequests false n (frameAddr p 0) = allocRun .epm userNoexec p n := by
  induction n generalizing p with
  | zero => rfl
  | succ n ih =>
    rw [stackLoopRequests, frameAddr_add_pageSize, ih, allocRun_cons]
    rfl

theorem stackRequests_eq :
    stackRequests defaultStackStart defaultStackSize false = allocRun .epm userNoexec 4194272 32 := by
  have hstart : roundDown (roundUp defaultStackStart pageBits - defaultStackSize) pageBits =
      frameAddr 4194272 0 := by decide
  have hpages : (((roundUp defaultStackStart pageBits -
      roundDown (roundUp defaultStackStart pageBits - defaultStackSize) pageBits) /
        pageSize).setWidth 32).toInt.toNat = 32 := by decide
  rw [stackRequests, hpages, hstart, stackLoopRequests_eq]

theorem untrustedLoopRequests_eq {v k n : ℕ} (hn : k < n) (htop : v + k < 2 ^ 52) :
    untrustedLoopRequests (frameAddr (v + k) 0) n (frameAddr v 0) = allocRun .utm utmFull v k := by
  induction k generalizing v n with
  | zero =>
    obtain ⟨n, rfl⟩ : ∃ n', n = n' + 1 := ⟨n - 1, by omega⟩
    rw [Nat.add_zero, untrustedLoopRequests, if_neg (BitVec.lt_irrefl _)]
    rfl
  | succ k ih =>
    obtain ⟨n, rfl⟩ : ∃ n', n = n' + 1 := ⟨n - 1, by omega⟩
    have hlt : frameAddr v 0 < frameAddr (v + (k + 1)) 0 := by
      rw [BitVec.lt_def, frameAddr_toNat (by omega) (by decide),
        frameAddr_toNat (by omega) (by decide)]
      omega
    have hrest := ih (show k < n by omega) (show v + 1 + k < 2 ^ 52 by omega)
    rw [show v + 1 + k = v + (k + 1) by omega] at hrest
    rw [untrustedLoopRequests, if_pos hlt, frameAddr_add_pageSize, hrest, allocRun_cons]

theorem untrustedRequests_eq {range : BitVec 64 × BitVec 64} (h : RangeEnds range) :
    untrustedRequests range.1 range.2 = allocRun .utm utmFull (range.1.toNat / 4096)
      ((range.1.toNat + range.2.toNat + 4095) / 4096 - range.1.toNat / 4096) := by
  unfold RangeEnds at h
  have hstart : roundDown range.1 pageBits = frameAddr (range.1.toNat / 4096) 0 := by
    apply BitVec.eq_of_toNat_eq
    rw [roundDown_toNat, frameAddr_toNat (by omega) (by decide)]
    omega
  have hend : roundUp (range.1 + range.2) pageBits =
      frameAddr (range.1.toNat / 4096 +
        ((range.1.toNat + range.2.toNat + 4095) / 4096 - range.1.toNat / 4096)) 0 := by
    apply BitVec.eq_of_toNat_eq
    rw [roundUp_toNat, BitVec.toNat_add, frameAddr_toNat (by omega) (by decide)]
    omega
  rw [untrustedRequests, hstart, hend]
  exact untrustedLoopRequests_eq (show _ < 4503599627370496 by omega) (by omega)

theorem allocRun_page (l : FreeList) (mode : BitVec 32) (p k v : ℕ) :
    (∃ r ∈ allocRun l mode p k, r.page = some v) ↔ ∃ i < k, (p + i) % 2 ^ 27 = v := by
  constructor
  · rintro ⟨r, hr, hp⟩
    obtain ⟨i, hi, rfl⟩ := List.mem_map.mp hr
    exact ⟨i, List.mem_range.mp hi, by rw [← vpn_page]; exact Option.some.inj hp⟩
  · rintro ⟨i, hi, rfl⟩
    exact ⟨_, List.mem_map.mpr ⟨i, List.mem_range.mpr hi, rfl⟩, congrArg some (vpn_page _)⟩

theorem allocRun_draws {l : FreeList} {mode : BitVec 32} {p k : ℕ} {r : Request}
    (hr : r ∈ allocRun l mode p k) (l' : FreeList) :
    r.draws l' = if l = l' then r.page else none := by
  obtain ⟨i, -, rfl⟩ := List.mem_map.mp hr
  rfl

theorem allocRun_returns {l : FreeList} {mode : BitVec 32} {p k : ℕ} :
    ∀ r ∈ allocRun l mode p k, r.Returns := by
  intro r hr
  obtain ⟨i, -, rfl⟩ := List.mem_map.mp hr
  exact fun _ => HostPtr.readable_ofBytes _ _

variable {elf : ELFFile}

/-- What a loadable image asks for at one of its pages. -/
theorem ELFFile.Loadable.request (h : elf.Loadable) {x : ElfPhdr × ℕ} (hx : x ∈ elf.segmentPages) :
    (elf.requestFor x).Returns ∧ (elf.requestFor x).page = some (pageNumber x) ∧
      (elf.requestFor x).draws .epm = some (pageNumber x) ∧
        (elf.requestFor x).draws .utm = none := by
  obtain ⟨hph, -⟩ := ELFFile.mem_segmentPages.mp hx
  have hreturns := requestFor_aligned (h.inFile _ hph) (h.aligned _ hph) x.2
  refine ⟨hreturns, ?_⟩
  change (elf.requestFor x).Returns at hreturns
  rw [ELFFile.requestFor, pageRequest] at hreturns ⊢
  split at hreturns
  · rw [if_pos ‹_›]
    have hnumber : vpn (frameAddr (x.1.startPage + x.2) 0) = pageNumber x :=
      vpn_frameAddr (by decide)
    exact ⟨congrArg some hnumber, congrArg some hnumber, rfl⟩
  · exact hreturns.elim

theorem ELFFile.Loadable.mem_dataRequests (h : elf.Loadable) {r : Request}
    (hr : r ∈ elf.dataRequests) : ∃ x ∈ elf.segmentPages, elf.requestFor x = r := by
  rw [ELFFile.dataRequests_eq h.ends] at hr
  exact List.mem_map.mp hr

theorem ELFFile.Loadable.dataRequests_page (h : elf.Loadable) (v : ℕ) :
    (∃ r ∈ elf.dataRequests, r.page = some v) ↔ v ∈ elf.imagePages := by
  rw [ELFFile.imagePages, List.mem_toFinset, List.mem_map]
  constructor
  · rintro ⟨r, hr, hp⟩
    obtain ⟨x, hx, rfl⟩ := h.mem_dataRequests hr
    rw [(h.request hx).2.1] at hp
    exact ⟨x, hx, Option.some.inj hp⟩
  · rintro ⟨x, hx, rfl⟩
    refine ⟨elf.requestFor x, ?_, (h.request hx).2.1⟩
    rw [ELFFile.dataRequests_eq h.ends]
    exact List.mem_map_of_mem hx

theorem ELFFile.tableRequests_page (elf : ELFFile) (v : ℕ) :
    (∃ r ∈ elf.tableRequests, r.page = some v) ↔ v ∈ elf.reservedPages := by
  rw [ELFFile.tableRequests, vspaceRequests_page, ELFFile.reservedPages, Finset.mem_image]
  simp only [Finset.mem_range]

end Producers

/-! ### The load sequence -/

section Load

variable (runtimeFile enclaveFile : ELFFile) (range : BitVec 64 × BitVec 64)

/-- What the load sequence asks for before `loadUntrusted`. -/
def epmRequests : List Request :=
  runtimeFile.tableRequests ++ runtimeFile.dataRequests ++ enclaveFile.tableRequests ++
    enclaveFile.dataRequests ++ stackRequests defaultStackStart defaultStackSize false

/-- The page numbers that get an EPM page. -/
def epmVpns : Finset ℕ := runtimeFile.imagePages ∪ enclaveFile.imagePages ∪ stackPages

/-- The page numbers that need page tables. -/
def tabledVpns : Finset ℕ :=
  runtimeFile.reservedPages ∪ enclaveFile.reservedPages ∪ epmVpns runtimeFile enclaveFile ∪
    untrustedVpns range.1 range.2

/-- The EPM pages a load takes: the root, the page tables, and the pages. -/
def epmNeed : ℕ :=
  1 + ((tabledVpns runtimeFile enclaveFile range).image (· / 512)).card +
    ((tabledVpns runtimeFile enclaveFile range).image (· / 262144)).card +
    (epmVpns runtimeFile enclaveFile).card

/-- The UTM pages a load takes: an untrusted page whose number has an EPM page
already is not mapped. -/
def utmNeed : ℕ := (untrustedVpns range.1 range.2 \ epmVpns runtimeFile enclaveFile).card

variable {runtimeFile enclaveFile range}

theorem loadRequests_eq :
    loadRequests runtimeFile enclaveFile range =
      epmRequests runtimeFile enclaveFile ++ untrustedRequests range.1 range.2 := by
  simp only [loadRequests, epmRequests, List.append_assoc]

theorem mem_epmRequests {r : Request} :
    r ∈ epmRequests runtimeFile enclaveFile ↔
      r ∈ runtimeFile.tableRequests ∨ r ∈ runtimeFile.dataRequests ∨
        r ∈ enclaveFile.tableRequests ∨ r ∈ enclaveFile.dataRequests ∨
          r ∈ allocRun .epm userNoexec 4194272 32 := by
  simp only [epmRequests, stackRequests_eq, List.mem_append, or_assoc]

theorem mem_stackPages (v : ℕ) :
    v ∈ stackPages ↔ ∃ i < 32, (4194272 + i) % 2 ^ 27 = v := by
  rw [stackPages, Finset.mem_image]
  simp only [Finset.mem_range]

theorem mem_untrustedVpns (v : ℕ) :
    v ∈ untrustedVpns range.1 range.2 ↔
      ∃ i < (range.1.toNat + range.2.toNat + 4095) / 4096 - range.1.toNat / 4096,
        (range.1.toNat / 4096 + i) % 2 ^ 27 = v := by
  rw [untrustedVpns, Finset.mem_image]
  simp only [Finset.mem_range]

/-- Which requests draw EPM pages. -/
theorem epmRequests_draws (hr : runtimeFile.Loadable) (he : enclaveFile.Loadable) (v : ℕ) :
    (∃ r ∈ epmRequests runtimeFile enclaveFile, r.draws .epm = some v) ↔
      v ∈ epmVpns runtimeFile enclaveFile := by
  have hdata : ∀ {elf : ELFFile}, elf.Loadable → ((∃ r ∈ elf.dataRequests, r.draws .epm = some v) ↔
      v ∈ elf.imagePages) := by
    intro elf h
    rw [← h.dataRequests_page]
    refine exists_congr fun r => and_congr_right fun hr => ?_
    obtain ⟨x, hx, rfl⟩ := h.mem_dataRequests hr
    obtain ⟨-, hpage, hdraws, -⟩ := h.request hx
    rw [hpage, hdraws]
  have hstack : (∃ r ∈ allocRun .epm userNoexec 4194272 32, r.draws .epm = some v) ↔
      v ∈ stackPages := by
    rw [mem_stackPages, ← allocRun_page .epm userNoexec]
    refine exists_congr fun r => and_congr_right fun hr => ?_
    rw [allocRun_draws hr, if_pos rfl]
  rw [epmVpns, Finset.mem_union, Finset.mem_union, ← hdata hr, ← hdata he, ← hstack]
  constructor
  · rintro ⟨r, hmem, hd⟩
    rcases mem_epmRequests.mp hmem with h | h | h | h | h
    · rw [vspaceRequests_draws _ _ _ r h] at hd
      cases hd
    · exact Or.inl (Or.inl ⟨r, h, hd⟩)
    · rw [vspaceRequests_draws _ _ _ r h] at hd
      cases hd
    · exact Or.inl (Or.inr ⟨r, h, hd⟩)
    · exact Or.inr ⟨r, h, hd⟩
  · rintro ((⟨r, h, hd⟩ | ⟨r, h, hd⟩) | ⟨r, h, hd⟩)
    · exact ⟨r, mem_epmRequests.mpr (Or.inr (Or.inl h)), hd⟩
    · exact ⟨r, mem_epmRequests.mpr (Or.inr (Or.inr (Or.inr (Or.inl h)))), hd⟩
    · exact ⟨r, mem_epmRequests.mpr (Or.inr (Or.inr (Or.inr (Or.inr h)))), hd⟩

theorem epmRequests_draws_utm (hr : runtimeFile.Loadable) (he : enclaveFile.Loadable) :
    ∀ r ∈ epmRequests runtimeFile enclaveFile, r.draws .utm = none := by
  intro r hmem
  rcases mem_epmRequests.mp hmem with h | h | h | h | h
  · exact vspaceRequests_draws _ _ _ r h
  · obtain ⟨x, hx, rfl⟩ := hr.mem_dataRequests h
    exact (hr.request hx).2.2.2
  · exact vspaceRequests_draws _ _ _ r h
  · obtain ⟨x, hx, rfl⟩ := he.mem_dataRequests h
    exact (he.request hx).2.2.2
  · rw [allocRun_draws h, if_neg (by decide)]

/-- Which page numbers the requests walk to. -/
theorem epmRequests_page (hr : runtimeFile.Loadable) (he : enclaveFile.Loadable) (v : ℕ) :
    (∃ r ∈ epmRequests runtimeFile enclaveFile, r.page = some v) ↔
      v ∈ runtimeFile.reservedPages ∪ enclaveFile.reservedPages ∪
        epmVpns runtimeFile enclaveFile := by
  have hstack : (∃ r ∈ allocRun .epm userNoexec 4194272 32, r.page = some v) ↔ v ∈ stackPages := by
    rw [mem_stackPages, allocRun_page]
  simp only [epmVpns, Finset.mem_union, ← hr.dataRequests_page, ← he.dataRequests_page, ← hstack,
    ← ELFFile.tableRequests_page, mem_epmRequests, or_and_right, exists_or]
  constructor
  · rintro (h | h | h | h | h)
    · exact Or.inl (Or.inl h)
    · exact Or.inr (Or.inl (Or.inl h))
    · exact Or.inl (Or.inr h)
    · exact Or.inr (Or.inl (Or.inr h))
    · exact Or.inr (Or.inr h)
  · rintro ((h | h) | (h | h) | h)
    · exact Or.inl h
    · exact Or.inr (Or.inr (Or.inl h))
    · exact Or.inr (Or.inl h)
    · exact Or.inr (Or.inr (Or.inr (Or.inl h)))
    · exact Or.inr (Or.inr (Or.inr (Or.inr h)))

theorem loadRequests_returns (hr : runtimeFile.Loadable) (he : enclaveFile.Loadable)
    (hrange : RangeEnds range) :
    ∀ r ∈ loadRequests runtimeFile enclaveFile range, r.Returns := by
  intro r hmem
  rw [loadRequests_eq, List.mem_append, mem_epmRequests, untrustedRequests_eq hrange] at hmem
  rcases hmem with (h | h | h | h | h) | h
  · exact vspaceRequests_returns _ _ r h
  · obtain ⟨x, hx, rfl⟩ := hr.mem_dataRequests h
    exact (hr.request hx).1
  · exact vspaceRequests_returns _ _ r h
  · obtain ⟨x, hx, rfl⟩ := he.mem_dataRequests h
    exact (he.request hx).1
  · exact allocRun_returns r h
  · exact allocRun_returns r h

theorem loadRequests_asked (hr : runtimeFile.Loadable) (he : enclaveFile.Loadable)
    (hrange : RangeEnds range) :
    AddressSpace.Asked (epmRequests runtimeFile enclaveFile) (untrustedRequests range.1 range.2)
      (tabledVpns runtimeFile enclaveFile range) (epmVpns runtimeFile enclaveFile)
      (untrustedVpns range.1 range.2) where
  valid := by
    rw [← loadRequests_eq]
    exact loadRequests_valid _ _ _
  returns := by
    rw [← loadRequests_eq]
    exact loadRequests_returns hr he hrange
  page := by
    intro v
    rw [tabledVpns, Finset.mem_union, ← epmRequests_page hr he, mem_untrustedVpns,
      ← allocRun_page .utm utmFull, ← untrustedRequests_eq hrange]
    simp only [List.mem_append, or_and_right, exists_or]
  epm := epmRequests_draws_utm hr he
  utm := by
    intro r h
    rw [untrustedRequests_eq hrange] at h
    rw [allocRun_draws h, if_neg (by decide)]
  epmPage := fun v => (epmRequests_draws hr he v).symm
  utmPage := by
    intro v
    rw [mem_untrustedVpns, ← allocRun_page .utm utmFull, untrustedRequests_eq hrange]
    refine exists_congr fun r => and_congr_right fun h => ?_
    rw [allocRun_draws h, if_pos rfl]

/-- The load sequence takes as many pages as it needs. -/
theorem loadRequests_used (hr : runtimeFile.Loadable) (he : enclaveFile.Loadable)
    (hrange : RangeEnds range) :
    (exec (forM (loadRequests runtimeFile enclaveFile range) Request.apply)
        AddressSpace.empty).2.epmUsed = epmNeed runtimeFile enclaveFile range ∧
      (exec (forM (loadRequests runtimeFile enclaveFile range) Request.apply)
        AddressSpace.empty).2.utmUsed = utmNeed runtimeFile enclaveFile range := by
  rw [loadRequests_eq]
  exact AddressSpace.run_used (loadRequests_asked hr he hrange)

/-- **The reservation is large enough exactly when** it has a page for the root,
for every page table, and for every page number: for all loadable images and all
parameters, from two empty buffers. -/
theorem load_inBuffers_iff (L : Layout) (s : Keystone) (hs : Repr.Initial L s)
    (hr : runtimeFile.Loadable) (he : enclaveFile.Loadable) (hrange : RangeEnds s.range)
    (dataStart : Vaddr) :
    InBuffers L (exec (loadSequence runtimeFile enclaveFile dataStart) s).2 ↔
      epmNeed runtimeFile enclaveFile s.range ≤ L.epmPages ∧
        utmNeed runtimeFile enclaveFile s.range ≤ L.utmPages := by
  obtain ⟨hepm, hutm⟩ := loadRequests_used hr he hrange
  rw [loadSequence_inBuffers_iff (Repr.of_initial hs), AddressSpace.Fits, hepm, hutm]

end Load

/-! ### Two small images -/

/-- A runtime of one page. -/
def smallRuntime : ELFFile where
  file := [1, 2, 3, 4, 5, 6, 7, 8]
  beyond := HostPtr.null
  entryPoint := 0xffffffffc0000000#64
  phdrs := [⟨ptLoad, 2#64, 0xffffffffc0000000#64, 4#64, 0x1000#64⟩]
  minVaddr := 0xffffffffc0000000#64
  maxVaddr := 0xffffffffc0001000#64
  isRuntime := true

theorem smallRuntime_loadable : smallRuntime.Loadable := by
  have hloads : smallRuntime.loads = [⟨ptLoad, 2#64, 0xffffffffc0000000#64, 4#64, 0x1000#64⟩] := by
    decide
  constructor <;> rw [hloads] <;> intro ph hph <;> obtain rfl := List.mem_singleton.mp hph
  · exact ⟨by decide, by decide⟩
  · exact ⟨by decide, by decide⟩
  · decide

theorem alignedElf_loadable : alignedElf.Loadable := by
  have hloads : alignedElf.loads = [⟨ptLoad, 2#64, 0x10000#64, 4#64, 0x1800#64⟩] := by decide
  constructor <;> rw [hloads] <;> intro ph hph <;> obtain rfl := List.mem_singleton.mp hph
  · exact ⟨by decide, by decide⟩
  · exact ⟨by decide, by decide⟩
  · decide

/-- The root, two tables for the runtime, two for the enclave, two for the stack,
two for the untrusted range, and 35 pages. -/
theorem smallLoad_need :
    epmNeed smallRuntime alignedElf (0x80000000#64, 0x2000#64) = 44 := by
  decide +kernel

end KeystoneSdk

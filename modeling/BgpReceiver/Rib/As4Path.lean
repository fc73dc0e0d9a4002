import BgpReceiver.Rib.AsPath

/-!
# AS4_PATH from a peer with four octets for each AS number

AS4_PATH is for peers that write AS numbers in two octets, and from others it is to be
ignored. The width is an argument of the decoder, and `apply_update` is not told of it: an
AS4_PATH that decodes is merged into the path whatever the width is.

Leaving the AS4_PATH attributes out of an UPDATE changes what its routes share in the path
only (`shared_without`). So the rows are the same when the path that is stored is the one of
AS_PATH, and that is so when it ends in the other one (`mergePath_eq_iff`). When every
route is withdrawn by the UPDATE itself there is no row to tell the two apart, and counters
that agree with the same rows are the same (`Consistent.analytics_eq`).
-/

namespace Rib

open Wire (RawAttr RawUpdate SameRoutes)

/-! ### Leaving AS4_PATH out -/

/-- A fold may leave out what changes nothing. -/
theorem foldl_filter_of_id {α σ : Type} {p : α → Bool} {f : σ → α → σ}
    (h : ∀ s a, p a = false → f s a = s) (l : List α) (s : σ) :
    (l.filter p).foldl f s = l.foldl f s := by
  rw [List.foldl_filter]
  congr 1
  funext s a
  by_cases ha : p a = true
  · rw [if_pos ha]
  · rw [if_neg ha, h s a (Bool.eq_false_iff.mpr ha)]

/-- So may a concatenation leave out what adds nothing. -/
theorem flatMap_filter_of_nil {α β : Type} {p : α → Bool} {f : α → List β}
    (h : ∀ a, p a = false → f a = []) (l : List α) : (l.filter p).flatMap f = l.flatMap f := by
  induction l with
  | nil => rfl
  | cons a l ih =>
    by_cases ha : p a = true
    · rw [List.filter_cons_of_pos ha, List.flatMap_cons, List.flatMap_cons, ih]
    · rw [List.filter_cons_of_neg ha, List.flatMap_cons, h a (Bool.eq_false_iff.mpr ha), ih,
        List.nil_append]

theorem code_of_dropped {a : RawAttr} {code : UInt8}
    (h : (fun a : RawAttr => decide (a.code ≠ code)) a = false) : a.code = code := by
  simpa using h

/-- The next hop of the flows is that of MP_REACH_NLRI, so it stays when another attribute is
dropped. -/
theorem flowNextHop_without {r : RawUpdate} {code : UInt8} (hcode : code ≠ 14) :
    (r.without code).flowNextHop = r.flowNextHop := by
  refine foldl_filter_of_id (fun hop a ha => ?_) r.attrs []
  rw [RawAttr.flowHop, if_neg (code_of_dropped ha ▸ hcode)]
  rfl

/-- The actions stay when no communities and no next hop are dropped. -/
theorem actions_without {r : RawUpdate} {code : UInt8} (hcode : code ≠ 14)
    (hcode' : ¬ (code = 16 ∨ code = 25)) (asnLen : ℕ) :
    (r.without code).actions asnLen = r.actions asnLen := by
  have hflat : (r.without code).attrs.flatMap (RawAttr.actions asnLen)
      = r.attrs.flatMap (RawAttr.actions asnLen) :=
    flatMap_filter_of_nil (fun a ha => if_neg (code_of_dropped ha ▸ hcode')) r.attrs
  rw [RawUpdate.actions, RawUpdate.actions, hflat]
  unfold RawUpdate.replaced
  rw [flowNextHop_without hcode]

/-- The communities that a record adds. -/
def communitiesOf (record : Json) : List String := (attrStep ⟨[], [], []⟩ record).communities

theorem attrStep_communities (acc : AttrAcc) (record : Json) :
    (attrStep acc record).communities = acc.communities ++ communitiesOf record := by
  unfold communitiesOf attrStep
  cases (record.index "value").asArray with
  | none => exact (List.append_nil _).symm
  | some values =>
    simp only
    split <;> simp

/-- The communities of a body are those of its attributes, in their order. -/
theorem attrAcc_communities {r : RawUpdate} {asnLen : ℕ} {u : Json} (h : r.Reports asnLen u) :
    (attrAcc u).communities = r.attrs.flatMap fun a => communitiesOf (recordOf r asnLen a) := by
  have hfold : ∀ (records : List Json) (acc : AttrAcc), (records.foldl attrStep acc).communities
      = acc.communities ++ records.flatMap communitiesOf := by
    intro records
    -- the communities of before stay in front, whatever the loop has
    induction records with
    | nil => exact fun acc => (List.append_nil _).symm
    | cons record records ih =>
      intro acc
      rw [List.foldl_cons, ih, attrStep_communities, List.flatMap_cons, List.append_assoc]
  unfold attrAcc
  rw [h.attributes, Json.asArray_arr, Option.getD_some, hfold]
  exact List.flatMap_map ..

theorem communitiesOf_as4 {a : RawAttr} (h : a.code = 17) (r : RawUpdate) (asnLen : ℕ) :
    communitiesOf (recordOf r asnLen a) = [] := by
  unfold communitiesOf attrStep
  rw [index_name_recordOf, h, Json.asStr_str, Option.getD_some]
  cases ((recordOf r asnLen a).index "value").asArray <;> rfl

/-- **Without AS4_PATH** the routes of an UPDATE share the path of AS_PATH, and everything
else as before. -/
theorem shared_without {r : RawUpdate} {asnLen : ℕ} (hasn : asnLen = 2 ∨ asnLen = 4) {u u' : Json}
    (h : r.Reports asnLen u) (h' : (r.without 17).Reports asnLen u') (peer : String) :
    shared u' peer = { shared u peer with asPath := lastAsns 2 asnLen r.attrs } := by
  obtain ⟨hpath, has4⟩ := attrAcc_path hasn h'
  -- no AS4_PATH is left, and the last AS_PATH is still the last
  have hlast : lastAsns 17 asnLen (r.without 17).attrs = [] := by
    have hnone : (r.without 17).attrs.filter (·.code = 17) = [] := by
      simp [RawUpdate.without, List.filter_filter]
    rw [lastAsns_filter, hnone]
    rfl
  have hsame : lastAsns 2 asnLen (r.without 17).attrs = lastAsns 2 asnLen r.attrs := by
    have hfilter : (r.without 17).attrs.filter (·.code = 2) = r.attrs.filter (·.code = 2) := by
      rw [RawUpdate.without, List.filter_filter]
      refine List.filter_congr fun a _ => ?_
      by_cases ha : a.code = 2
      · simp [ha]
      · simp [ha]
    rw [lastAsns_filter, hfilter, ← lastAsns_filter]
  have hmerge : mergePath (attrAcc u') = lastAsns 2 asnLen r.attrs := by
    unfold mergePath
    rw [has4, hlast, if_neg (not_not.mpr rfl), hpath, hsame]
  have hcommunities : (attrAcc u').communities = (attrAcc u).communities := by
    rw [attrAcc_communities h', attrAcc_communities h]
    -- the records that stay are rewritten with the same next hop
    have hrecord : ∀ a, recordOf (r.without 17) asnLen a = recordOf r asnLen a := by
      intro a
      unfold recordOf RawUpdate.replaced
      rw [flowNextHop_without (by decide)]
    simp only [hrecord]
    exact flatMap_filter_of_nil
      (fun a ha => communitiesOf_as4 (code_of_dropped ha) r asnLen) r.attrs
  have hactions : u'.index "actions" = u.index "actions" := by
    rw [h'.actions, h.actions, actions_without (by decide) (by decide)]
  unfold shared
  rw [hmerge, hcommunities, hactions]

/-- **When the merged path is the path of AS_PATH.** -/
theorem mergePath_eq_iff (acc : AttrAcc) : mergePath acc = acc.path ↔ acc.as4 <:+ acc.path := by
  unfold mergePath
  by_cases hnil : acc.as4 = []
  · rw [if_neg (not_not.mpr hnil), hnil]
    exact iff_of_true rfl (List.nil_suffix)
  · rw [if_pos hnil]
    constructor
    · intro h
      exact ⟨_, h⟩
    · rintro ⟨front, hfront⟩
      rw [← hfront, List.length_append, Nat.add_sub_cancel, List.take_left]

/-! ### Two updates side by side -/

section

variable {digest : Bytes → Vector UInt8 20} {o : Outside} {u u' : Json} {peer : String}

/-- Two UPDATEs of the same routes have the same groups. -/
theorem groups_eq_of_sameRoutes (h : SameRoutes u u') (kind : UpdateKind) :
    groups u kind = groups u' kind := by
  unfold groups
  cases kind with
  | announce => rw [show u.index UpdateKind.announce.text = _ from h.1]; rfl
  | withdraw => rw [show u.index UpdateKind.withdraw.text = _ from h.2]; rfl

variable (digest peer) in
/-- They have the same ids, since the path is in none. -/
theorem idsOf_eq_of_sameRoutes (h : SameRoutes u u') (kind : UpdateKind) :
    idsOf digest u peer kind = idsOf digest u' peer kind := by
  unfold idsOf routesOf
  rw [groups_eq_of_sameRoutes h]

/-- Updates with the same routes that share the same leave the same store. -/
theorem store_eq_of_shared {d d₁ d₂ : Data} (hc : Consistent d) (hroutes : SameRoutes u u')
    (hshared : shared u peer = shared u' peer) (h₁ : applyUpdate digest o u peer d = some d₁)
    (h₂ : applyUpdate digest o u' peer d = some d₂) : d₁.store = d₂.store := by
  -- both updates go through the same steps, and each step does the same
  have hsteps : updateSteps u = updateSteps u' := by
    unfold updateSteps
    simp only [groups_eq_of_sameRoutes hroutes]
  have hstep : updateStep digest o u peer = updateStep digest o u' peer := by
    funext p st
    unfold updateStep routeOp
    rw [hshared]
  obtain ⟨p₁, hp₁, hs₁⟩ := applyUpdate_split digest o u peer hc h₁
  obtain ⟨p₂, hp₂, hs₂⟩ := applyUpdate_split digest o u' peer hc h₂
  rw [hsteps, hstep, hshared, hp₂] at hp₁
  obtain rfl := Option.some.inj hp₁
  rw [hs₁, hs₂]

/-- Updates with the same routes leave the same row under an id, if what they share is the
same or they both withdraw the id. -/
theorem byId_eq_of_withdrawn {d d₁ d₂ : Data} (hc : Consistent d) (hroutes : SameRoutes u u')
    (hall : ∀ id ∈ idsOf digest u peer .announce, id ∈ idsOf digest u peer .withdraw)
    (h₁ : applyUpdate digest o u peer d = some d₁) (h₂ : applyUpdate digest o u' peer d = some d₂) :
    d₁.byId = d₂.byId := by
  funext id
  have hann := idsOf_eq_of_sameRoutes digest peer hroutes .announce
  have hwd := idsOf_eq_of_sameRoutes digest peer hroutes .withdraw
  by_cases hw : id ∈ idsOf digest u peer .withdraw
  · -- the row is gone behind both
    rw [applyUpdate_withdrawn hc h₁ hw, applyUpdate_withdrawn hc h₂ (hwd ▸ hw)]
  · -- the id is not announced either, and has its row of before
    have ha : id ∉ idsOf digest u peer .announce := fun ha => hw (hall id ha)
    rw [applyUpdate_other hc h₁ ha hw, applyUpdate_other hc h₂ (hann ▸ ha) (hwd ▸ hw)]

end

/-- Stores with the same row under every id have the same rows. -/
theorem values_perm_of_byId {d d' : Data} (h : Indexed d) (h' : Indexed d')
    (hb : d.byId = d'.byId) : d.routes.values.Perm d'.routes.values := by
  have hmem : ∀ {d d' : Data}, Indexed d → Indexed d' → d.byId = d'.byId →
      ∀ row ∈ d.routes.values, row ∈ d'.routes.values := by
    intro d d' h h' hb row hrow
    obtain ⟨s, hs⟩ := d.routes.mem_values_iff.mp hrow
    have hid := h.byId_of_row hs
    rw [hb] at hid
    exact d'.routes.mem_values_iff.mpr (h'.row_of_byId hid).1
  refine (List.perm_ext_iff_of_nodup (.of_map _ h.nodup) (.of_map _ h'.nodup)).mpr fun row => ?_
  exact ⟨hmem h h' hb row, hmem h' h hb.symm row⟩

/-- **The counters follow the rows.** -/
theorem Consistent.analytics_eq {d d' : Data} (h : Consistent d) (h' : Consistent d')
    (hb : d.byId = d'.byId) {name : String} (hname : name ∈ analyticsTables) :
    d.analytics.find name = d'.analytics.find name :=
  (h.counted.analytics.perm ((values_perm_of_byId h.indexed h'.indexed hb).flatMap_right
    Data.metrics)).unique h'.counted.analytics hname

/-! ### When AS4_PATH is ignored -/

section

variable {digest : Bytes → Vector UInt8 20}

/-- The paths of the announced routes and the statistics of their origins are the same in two
stores. -/
def SamePaths (digest : Bytes → Vector UInt8 20) (u : Json) (peer : String) (d₁ d₂ : Data) : Prop :=
  (∀ id ∈ idsOf digest u peer .announce,
    (d₁.byId id).map Route.asPath = (d₂.byId id).map Route.asPath) ∧
  d₁.analytics.find "origin_as" = d₂.analytics.find "origin_as"

/-- **When AS4_PATH from a peer with four octets is ignored**: when the path of AS_PATH ends
in it, or when the UPDATE withdraws all that it announces. -/
theorem as4Path_ignored_iff {d : Data} (h : sections.Reachable d) {body : Bytes} {u : Json}
    (hu : Wire.update body 4 = .ok u) (o : Outside) (peer : String) :
    ∃ r : RawUpdate, r.Enc body ∧ (∃ body', (r.without 17).Enc body') ∧
      ∀ body', (r.without 17).Enc body' → ∃ u' d₁ d₂, Wire.update body' 4 = .ok u' ∧
        applyUpdate digest o u peer d = some d₁ ∧ applyUpdate digest o u' peer d = some d₂ ∧
        (SamePaths digest u peer d₁ d₂ ↔ lastAsns 17 4 r.attrs <:+ lastAsns 2 4 r.attrs ∨
          ∀ id ∈ idsOf digest u peer .announce, id ∈ idsOf digest u peer .withdraw) := by
  obtain ⟨r, henc, hreports⟩ := Wire.update_attributes hu
  refine ⟨r, henc, henc.without 17, fun body' henc' => ?_⟩
  -- the decoder takes the UPDATE without AS4_PATH too, with the same routes
  have hmatched := Wire.update_without henc henc' (by decide) (Or.inr rfl)
  rw [hu] at hmatched
  generalize hu' : Wire.update body' 4 = run at hmatched
  obtain @⟨_, u', hroutes⟩ := hmatched
  obtain ⟨r', henc'', hreports'⟩ := Wire.update_attributes hu'
  obtain rfl := henc'.unique henc''
  have hc := sections_consistent h
  obtain ⟨d₁, -, h₁, -, hc₁⟩ := applyUpdate_run digest o u peer hc
  obtain ⟨d₂, -, h₂, -, hc₂⟩ := applyUpdate_run digest o u' peer hc
  refine ⟨u', d₁, d₂, rfl, h₁, h₂, ?_⟩
  have hshared := shared_without (Or.inr rfl) hreports hreports' peer
  obtain ⟨hpath, has4⟩ := attrAcc_path (Or.inr rfl) hreports
  have hmerge := mergePath_eq_iff (attrAcc u)
  rw [hpath, has4] at hmerge
  have hwd := idsOf_eq_of_sameRoutes digest peer hroutes .withdraw
  have hann := idsOf_eq_of_sameRoutes digest peer hroutes .announce
  constructor
  · rintro ⟨hsame, -⟩
    by_cases hall : ∀ id ∈ idsOf digest u peer .announce, id ∈ idsOf digest u peer .withdraw
    · exact Or.inr hall
    · -- an announced route that is there has the one path and the other
      push Not at hall
      obtain ⟨id, hid, hw⟩ := hall
      obtain ⟨row₁, hr₁, hp₁⟩ := exists_row_asPath hc h₁ hid hw
      obtain ⟨row₂, hr₂, hp₂⟩ := exists_row_asPath hc h₂ (hann ▸ hid) (hwd ▸ hw)
      have hp := hsame id hid
      rw [hr₁, hr₂] at hp
      have hp := Option.some.inj hp
      rw [hp₁, hp₂] at hp
      have hother : mergePath (attrAcc u') = lastAsns 2 4 r.attrs := congrArg Shared.asPath hshared
      exact Or.inl (hmerge.mp (hp.trans hother))
  · intro hcases
    have hboth : d₁.byId = d₂.byId ∧
        d₁.analytics.find "origin_as" = d₂.analytics.find "origin_as" := by
      rcases hcases with hsuffix | hall
      · -- the merged path is that of AS_PATH, so the two updates do the same
        have hsh : shared u peer = shared u' peer := by
          have hp : (shared u peer).asPath = lastAsns 2 4 r.attrs := hmerge.mpr hsuffix
          rw [hshared, ← hp]
        have hstore := store_eq_of_shared hc hroutes hsh h₁ h₂
        refine ⟨byId_of_store_eq hstore, ?_⟩
        simp only [Data.store, Prod.mk.injEq] at hstore
        rw [hstore.2.2.2.2]
      · -- no row is left of the one or the other path, and the counters count rows
        have hb := byId_eq_of_withdrawn hc hroutes hall h₁ h₂
        exact ⟨hb, hc₁.analytics_eq hc₂ hb (by decide)⟩
    exact ⟨fun id _ => by rw [hboth.1], hboth.2⟩

end

/-- An UPDATE that announces 10.2.0.0/16 with an AS_PATH of one AS number in four octets, and
with the given AS4_PATH. -/
def wideUpdate (as4 : Bytes) : RawUpdate where
  withdrawn := []
  attrs := [⟨0x40, 2, [2, 1, 0, 0, 0xFD, 0xE9]⟩, ⟨0xC0, 17, as4⟩]
  nlri := [16, 10, 2]

/-- It holds of an UPDATE with the same AS number in both. -/
theorem as4Path_ignored_iff_same :
    ∃ u, Wire.update (wideUpdate [2, 1, 0, 0, 0xFD, 0xE9]).octets 4 = .ok u ∧
      ∃ r : RawUpdate, r.Enc (wideUpdate [2, 1, 0, 0, 0xFD, 0xE9]).octets ∧
        (∃ body', (r.without 17).Enc body') ∧
        ∀ body', (r.without 17).Enc body' → ∃ u' d₁ d₂, Wire.update body' 4 = .ok u' ∧
          applyUpdate cancelDigest sampleOutside u samplePeer (Data.new none) = some d₁ ∧
          applyUpdate cancelDigest sampleOutside u' samplePeer (Data.new none) = some d₂ ∧
          (SamePaths cancelDigest u samplePeer d₁ d₂ ↔
            lastAsns 17 4 r.attrs <:+ lastAsns 2 4 r.attrs ∨
            ∀ id ∈ idsOf cancelDigest u samplePeer .announce,
              id ∈ idsOf cancelDigest u samplePeer .withdraw) := by
  have hu := @updateOf_ok (wideUpdate [2, 1, 0, 0, 0xFD, 0xE9]).octets 4 (by decide)
  exact ⟨_, hu, as4Path_ignored_iff (.init ⟨none, rfl⟩) hu sampleOutside samplePeer⟩

/-- An UPDATE with 65001 in AS_PATH and 70000 in AS4_PATH. -/
def mixedUpdate : RawUpdate := wideUpdate [2, 1, 0, 1, 0x11, 0x70]

/-- The one is stored with AS4_PATH and the other without it. -/
theorem mixedUpdate_not_samePaths :
    ∃ u u' d₁ d₂, Wire.update mixedUpdate.octets 4 = .ok u ∧ mixedUpdate.Enc mixedUpdate.octets ∧
      Wire.update (mixedUpdate.without 17).octets 4 = .ok u' ∧
      (mixedUpdate.without 17).Enc (mixedUpdate.without 17).octets ∧
      applyUpdate cancelDigest sampleOutside u samplePeer (Data.new none) = some d₁ ∧
      applyUpdate cancelDigest sampleOutside u' samplePeer (Data.new none) = some d₂ ∧
      ¬ SamePaths cancelDigest u samplePeer d₁ d₂ := by
  have hu := @updateOf_ok mixedUpdate.octets 4 (by decide)
  have hu' := @updateOf_ok (mixedUpdate.without 17).octets 4 (by decide)
  -- both announce the same route, and withdraw none
  have hids : ∀ u ∈ [updateOf mixedUpdate.octets 4, updateOf (mixedUpdate.without 17).octets 4],
      "2f9e027fa204" ∈ idsOf cancelDigest u samplePeer .announce ∧
        "2f9e027fa204" ∉ idsOf cancelDigest u samplePeer .withdraw := by
    decide
  obtain ⟨hid, hw⟩ := hids _ (.head _)
  obtain ⟨hid', hw'⟩ := hids _ (.tail _ (.head _))
  -- with the AS4_PATH the path is another one
  have hmerge : mergePath (attrAcc (updateOf mixedUpdate.octets 4)) = [70000] ∧
      mergePath (attrAcc (updateOf (mixedUpdate.without 17).octets 4)) = [65001] := by
    decide
  have hc : Consistent (Data.new none) := new_consistent none
  obtain ⟨d₁, -, h₁, -⟩ := applyUpdate_run cancelDigest sampleOutside
    (updateOf mixedUpdate.octets 4) samplePeer hc
  obtain ⟨d₂, -, h₂, -⟩ := applyUpdate_run cancelDigest sampleOutside
    (updateOf (mixedUpdate.without 17).octets 4) samplePeer hc
  obtain ⟨row₁, hr₁, hp₁⟩ := exists_row_asPath hc h₁ hid hw
  obtain ⟨row₂, hr₂, hp₂⟩ := exists_row_asPath hc h₂ hid' hw'
  refine ⟨_, _, d₁, d₂, hu, Wire.RawUpdate.enc_octets (by decide), hu',
    Wire.RawUpdate.enc_octets (by decide), h₁, h₂, fun hsame => ?_⟩
  have hboth := hsame.1 "2f9e027fa204" hid
  rw [hr₁, hr₂] at hboth
  have hboth := Option.some.inj hboth
  rw [hp₁, hp₂, hmerge.1, hmerge.2] at hboth
  exact absurd hboth (by decide)

end Rib

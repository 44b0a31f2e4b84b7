import Dockerfiles.Shell.Sed

/-! # The shipped `icecast.xml`

The template by lines, and the same text with any four values in place of its
placeholders. Each placeholder is the whole content of an element, and no other
line contains one, so a replacement of placeholders acts on the four values
independently of each other.
-/

namespace Icecast

open Shell

/-! ## The template -/

def hostnameWord : Text := "HOSTNAME".toList

def sourceWord : Text := "SOURCE_PASSWORD".toList

def relayWord : Text := "RELAY_PASSWORD".toList

def adminWord : Text := "ADMIN_PASSWORD".toList

/-- `icecast/etc/icecast.xml`, one string a line. -/
def xmlLines : List String := [
  "<icecast>",
  "    <location>San Francisco, CA</location>",
  "    <admin>icecast@tribal.fm</admin>",
  "",
  "    <limits>",
  "        <clients>100</clients>",
  "        <sources>2</sources>",
  "        <queue-size>524288</queue-size>",
  "        <client-timeout>30</client-timeout>",
  "        <header-timeout>15</header-timeout>",
  "        <source-timeout>10</source-timeout>",
  " ",
  "        <!-- same as burst-on-connect, but this allows for being more",
  "             specific on how much to burst. Most people won't need to",
  "             change from the default 64k. Applies to all mountpoints  -->",
  "        <burst-size>65535</burst-size>",
  "    </limits>",
  "",
  "    <authentication>",
  "        <!-- Sources log in with username 'source' -->",
  "        <source-password>SOURCE_PASSWORD</source-password>",
  "        <!-- Relays log in with username 'relay' -->",
  "        <relay-password>RELAY_PASSWORD</relay-password>",
  "",
  "        <!-- Admin logs in with the username given below -->",
  "        <admin-user>admin</admin-user>",
  "        <admin-password>ADMIN_PASSWORD</admin-password>",
  "    </authentication>",
  "",
  "    <!-- Uncomment this if you want directory listings -->",
  "    <!-- <directory>",
  "        <yp-url-timeout>15</yp-url-timeout>",
  "        <yp-url>http://dir.xiph.org/cgi-bin/yp-cgi</yp-url>",
  "    </directory> -->",
  "",
  "    <hostname>HOSTNAME</hostname>",
  "",
  "    <!-- You may have multiple <listen-socket> elements -->",
  "    <listen-socket>",
  "        <port>8000</port>",
  "        <!-- <bind-address>127.0.0.1</bind-address> -->",
  "        <!-- <shoutcast-mount>/stream</shoutcast-mount> -->",
  "    </listen-socket>",
  "    <!--",
  "    <listen-socket>",
  "        <port>8080</port>",
  "    </listen-socket>",
  "    -->",
  "    <!--",
  "    <listen-socket>",
  "        <port>8443</port>",
  "        <tls>1</tls>",
  "    </listen-socket>",
  "    -->",
  "",
  "    <http-headers>",
  "        <header name=\"Access-Control-Allow-Origin\" value=\"*\" />",
  "    </http-headers>",
  "",
  "    <mount type=\"default\">",
  "      <public>0</public>",
  "      <max-listener-duration>3600</max-listener-duration>",
  "    </mount>",
  "",
  "    <mount type=\"normal\">",
  "      <mount-name>/stream.opus</mount-name>",
  "      <fallback-mount>/stream.ogg</fallback-mount>",
  "      <public>1</public>",
  "    </mount>",
  "",
  "    <mount type=\"normal\">",
  "      <mount-name>/stream.mp3</mount-name>",
  "      <fallback-mount>/stream.ogg</fallback-mount>",
  "      <public>1</public>",
  "    </mount>",
  "",
  "    <mount type=\"normal\">",
  "      <mount-name>/stream.ogg</mount-name>",
  "      <public>1</public>",
  "    </mount>",
  "",
  "    <fileserve>1</fileserve>",
  "",
  "    <paths>",
  "        <!-- basedir is only used if chroot is enabled -->",
  "        <basedir>/usr/share/icecast</basedir>",
  "",
  "        <!-- Note that if <chroot> is turned on below, these paths must both",
  "             be relative to the new root, not the original root -->",
  "        <logdir>/var/log/icecast</logdir>",
  "        <webroot>/usr/share/icecast/web</webroot>",
  "        <adminroot>/usr/share/icecast/admin</adminroot>",
  "        <!-- <pidfile>/usr/share/icecast/icecast.pid</pidfile> -->",
  "",
  "        <!-- Aliases: treat requests for 'source' path as being for 'dest' path",
  "             May be made specific to a port or bound address using the \"port\"",
  "             and \"bind-address\" attributes.",
  "          -->",
  "        <!--",
  "        <alias source=\"/foo\" destination=\"/bar\"/>",
  "        -->",
  "        <!-- Aliases: can also be used for simple redirections as well,",
  "             this example will redirect all requests for http://server:port/ to",
  "             the status page",
  "        -->",
  "        <alias source=\"/\" destination=\"/status.xsl\"/>",
  "        <!-- The certificate file needs to contain both public and private part.",
  "             Both should be PEM encoded.",
  "        <tls-certificate>/usr/local/share/icecast/icecast.pem</tls-certificate>        -->",
  "    </paths>",
  "",
  "    <logging>",
  "        <accesslog>access.log</accesslog>",
  "        <errorlog>error.log</errorlog>",
  "        <!-- <playlistlog>playlist.log</playlistlog> -->",
  "        <loglevel>3</loglevel> <!-- 4 Debug, 3 Info, 2 Warn, 1 Error -->",
  "        <logsize>10000</logsize> <!-- Max size of a logfile -->",
  "        <!-- If logarchive is enabled (1), then when logsize is reached",
  "             the logfile will be moved to [error|access|playlist].log.DATESTAMP,",
  "             otherwise it will be moved to [error|access|playlist].log.old.",
  "             Default is non-archive mode (i.e. overwrite)",
  "        -->",
  "        <!-- <logarchive>1</logarchive> -->",
  "    </logging>",
  "",
  "    <security>",
  "        <chroot>0</chroot>",
  "        <!-- <changeowner>",
  "            <user>icecast</user>",
  "            <group>icecast</group>",
  "        </changeowner> -->",
  "    </security>",
  "</icecast>"]

/-- The content of the file; every line ends with a newline. -/
def icecastXml : Text := ['\n'].intercalate (xmlLines.map String.toList ++ [[]])

/-! ## Elements on a line of their own -/

def openTag (tag : Text) : Text := '<' :: (tag ++ ['>'])

def closeTag (tag : Text) : Text := '<' :: '/' :: (tag ++ ['>'])

def elementLine (indent : Nat) (tag value : Text) : Text :=
  List.replicate indent ' ' ++ (openTag tag ++ (value ++ closeTag tag))

def sourceTag : Text := "source-password".toList

def relayTag : Text := "relay-password".toList

def adminTag : Text := "admin-password".toList

def hostnameTag : Text := "hostname".toList

def sourceLine (value : Text) : Text := elementLine 8 sourceTag value

def relayLine (value : Text) : Text := elementLine 8 relayTag value

def adminLine (value : Text) : Text := elementLine 8 adminTag value

def hostnameLine (value : Text) : Text := elementLine 4 hostnameTag value

/-! ## The template with other values -/

/-- Consecutive lines of the template. -/
def gap (first count : Nat) : List Text := ((xmlLines.drop first).take count).map String.toList

/-- The lines of the file with the given passwords and host name in place. -/
def fillLines (source relay admin hostname : Text) : List Text :=
  gap 0 20 ++ sourceLine source :: (gap 21 1 ++ relayLine relay :: (gap 23 3 ++
    adminLine admin :: (gap 27 8 ++ hostnameLine hostname :: (gap 36 97 ++ [[]]))))

def fill (source relay admin hostname : Text) : Text :=
  ['\n'].intercalate (fillLines source relay admin hostname)

private theorem placeholder_lines :
    sourceLine sourceWord =
        "        <source-password>SOURCE_PASSWORD</source-password>".toList ∧
      relayLine relayWord = "        <relay-password>RELAY_PASSWORD</relay-password>".toList ∧
      adminLine adminWord = "        <admin-password>ADMIN_PASSWORD</admin-password>".toList ∧
      hostnameLine hostnameWord = "    <hostname>HOSTNAME</hostname>".toList := by
  refine ⟨?_, ?_, ?_, ?_⟩ <;> rfl

/-- The shipped file is the one filled with the placeholders themselves. -/
theorem icecastXml_eq_fill : icecastXml = fill sourceWord relayWord adminWord hostnameWord := by
  obtain ⟨hs, hr, ha, hh⟩ := placeholder_lines
  rw [icecastXml, fill, fillLines, hs, hr, ha, hh]
  rfl

/-! ## Lines without a value -/

def passwordTagEnd : Text := "-password>".toList

/-- A line that holds neither a character that every placeholder has nor the end
of a password's tag. -/
def Inert (l : Text) : Prop :=
  '\n' ∉ l ∧ '_' ∉ l ∧ 'H' ∉ l ∧ ¬ passwordTagEnd <:+: l

instance (l : Text) : Decidable (Inert l) := by unfold Inert; infer_instance

-- A literal is taken for `String.ofList` of its characters: decoding it is far slower.
private theorem inert_cons {l : Text} {ls : List Text} (h : Inert l) (hs : ∀ l' ∈ ls, Inert l') :
    ∀ l' ∈ (String.ofList l).toList :: ls, Inert l' := by
  rw [String.toList_ofList]
  exact List.forall_mem_cons.mpr ⟨h, hs⟩

theorem inert_gaps :
    ∀ l ∈ gap 0 20 ++ (gap 21 1 ++ (gap 23 3 ++ (gap 27 8 ++ gap 36 97))), Inert l := by
  simp only [gap, xmlLines, List.drop_zero, List.drop_succ_cons, List.take_succ_cons,
    List.take_zero, List.map_cons, List.map_nil, List.cons_append, List.nil_append]
  repeat refine inert_cons (by decide +kernel) ?_
  exact List.forall_mem_nil _

/-! ## Replacing placeholders -/

def placeholders : List Text := [hostnameWord, sourceWord, relayWord, adminWord]

private theorem placeholder_mark : ∀ w ∈ placeholders, '_' ∈ w ∨ 'H' ∈ w := by decide

private theorem placeholder_seps :
    ∀ w ∈ placeholders, '\n' ∉ w ∧ '<' ∉ w ∧ '>' ∉ w := by decide

section Replacing

variable {table : List (Text × Text)} (ht : ∀ entry ∈ table, entry.1 ∈ placeholders)

include ht

theorem substMany_unmarked {t : Text} (hu : '_' ∉ t) (hH : 'H' ∉ t) : substMany table t = t := by
  apply substMany_of_forall_not_infix
  intro entry he hi
  rcases placeholder_mark _ (ht entry he) with hm | hm
  · exact hu (hi.subset hm)
  · exact hH (hi.subset hm)

theorem substMany_elementLine (indent : Nat) {tag : Text} (value : Text) (hu : '_' ∉ tag)
    (hH : 'H' ∉ tag) :
    substMany table (elementLine indent tag value) =
      elementLine indent tag (substMany table value) := by
  have hopen : ∀ entry ∈ table, '>' ∉ entry.1 :=
    fun entry he => (placeholder_seps _ (ht entry he)).2.2
  have hclose : ∀ entry ∈ table, '<' ∉ entry.1 :=
    fun entry he => (placeholder_seps _ (ht entry he)).2.1
  have hl : ∀ v, elementLine indent tag v =
      (List.replicate indent ' ' ++ '<' :: tag) ++ '>' :: (v ++ '<' :: ('/' :: (tag ++ ['>']))) := by
    intro v
    simp [elementLine, openTag, closeTag]
  have hbefore : substMany table (List.replicate indent ' ' ++ '<' :: tag) =
      List.replicate indent ' ' ++ '<' :: tag := by
    apply substMany_unmarked ht <;> simp [hu, hH, List.mem_replicate]
  have hafter : substMany table ('/' :: (tag ++ ['>'])) = '/' :: (tag ++ ['>']) := by
    apply substMany_unmarked ht <;> simp [hu, hH]
  rw [hl, hl, substMany_append_sep _ _ hopen, hbefore, substMany_append_sep _ _ hclose, hafter]

private theorem map_substMany_gap {first count : Nat} (hg : ∀ l ∈ gap first count, Inert l) :
    (gap first count).map (substMany table) = gap first count := by
  have hid : (gap first count).map (substMany table) = (gap first count).map id :=
    List.map_inj_left.mpr fun l hl => substMany_unmarked ht (hg l hl).2.1 (hg l hl).2.2.1
  rw [hid, List.map_id]

/-- Replacing placeholders in the filled template replaces them in its values. -/
theorem substMany_fill (source relay admin hostname : Text) :
    substMany table (fill source relay admin hostname) =
      fill (substMany table source) (substMany table relay) (substMany table admin)
        (substMany table hostname) := by
  have hn : ∀ entry ∈ table, '\n' ∉ entry.1 :=
    fun entry he => (placeholder_seps _ (ht entry he)).1
  have hnil : substMany table [] = [] := rfl
  have hg := inert_gaps
  simp only [List.forall_mem_append] at hg
  obtain ⟨h0, h1, h2, h3, h4⟩ := hg
  rw [fill, substMany_intercalate hn, fill]
  congr 1
  simp only [fillLines, List.map_append, List.map_cons, List.map_nil, hnil,
    map_substMany_gap ht h0, map_substMany_gap ht h1, map_substMany_gap ht h2,
    map_substMany_gap ht h3, map_substMany_gap ht h4, sourceLine, relayLine, adminLine,
    hostnameLine]
  rw [substMany_elementLine ht, substMany_elementLine ht, substMany_elementLine ht,
    substMany_elementLine ht]
  all_goals decide

end Replacing

/-! ## The lines of a filled template -/

theorem elementLine_injective (indent : Nat) (tag : Text) :
    Function.Injective (elementLine indent tag) := by
  intro v v' h
  simpa [elementLine] using h

theorem count_elementLine (indent : Nat) {tag : Text} (value : Text) (ht : '\n' ∉ tag) :
    (elementLine indent tag value).count '\n' = value.count '\n' := by
  simp [elementLine, openTag, closeTag, List.count_eq_zero_of_not_mem ht, List.count_replicate]

private theorem count_intercalate (ls : List Text) :
    (['\n'].intercalate ls).count '\n' + 1 = (ls.map (List.count '\n')).sum + max ls.length 1 := by
  induction ls with
  | nil => simp
  | cons l ls ih =>
      cases ls with
      | nil => simp
      | cons l' ls =>
          rw [List.intercalate_cons_cons]
          simp only [List.count_append, List.count_singleton_self, List.map_cons, List.sum_cons,
            List.length_cons] at ih ⊢
          omega

private theorem count_tagged (v : Text) :
    (sourceLine v).count '\n' = v.count '\n' ∧ (relayLine v).count '\n' = v.count '\n' ∧
      (adminLine v).count '\n' = v.count '\n' ∧ (hostnameLine v).count '\n' = v.count '\n' := by
  refine ⟨?_, ?_, ?_, ?_⟩ <;> exact count_elementLine _ v (by decide)

-- Stated for any lines between the values, so that nothing computes with the template's.
private theorem count_around (g₀ g₁ g₂ g₃ g₄ : List Text) : ∃ n, ∀ source relay admin hostname,
    (['\n'].intercalate (g₀ ++ sourceLine source :: (g₁ ++ relayLine relay :: (g₂ ++
      adminLine admin :: (g₃ ++ hostnameLine hostname :: g₄))))).count '\n' =
      n + (source.count '\n' + relay.count '\n' + admin.count '\n' + hostname.count '\n') := by
  let total (g : List Text) : Nat := (g.map (List.count '\n')).sum + g.length
  refine ⟨total g₀ + total g₁ + total g₂ + total g₃ + total g₄ + 3, ?_⟩
  intro source relay admin hostname
  have hc := count_intercalate (g₀ ++ sourceLine source :: (g₁ ++ relayLine relay :: (g₂ ++
      adminLine admin :: (g₃ ++ hostnameLine hostname :: g₄))))
  simp only [List.map_append, List.map_cons, List.sum_append, List.sum_cons, List.length_append,
    List.length_cons, (count_tagged _).1, (count_tagged _).2.1, (count_tagged _).2.2.1,
    (count_tagged _).2.2.2] at hc
  simp only [total]
  omega

/-- A filled template with values of one line has the lines it is made of. -/
theorem splitOn_fill {source relay admin hostname : Text} (hs : '\n' ∉ source) (hr : '\n' ∉ relay)
    (ha : '\n' ∉ admin) (hh : '\n' ∉ hostname) :
    (fill source relay admin hostname).splitOn '\n' = fillLines source relay admin hostname := by
  have hg := inert_gaps
  have hline : ∀ l v : Text, l.count '\n' = v.count '\n' → '\n' ∉ v → '\n' ∉ l := by
    intro l v hc hv
    rw [← List.count_eq_zero] at hv ⊢
    omega
  apply List.splitOn_intercalate
  · simp only [List.forall_mem_append, fillLines, List.forall_mem_cons] at hg ⊢
    obtain ⟨h0, h1, h2, h3, h4⟩ := hg
    refine ⟨fun l hl => (h0 l hl).1, hline _ _ (count_tagged source).1 hs,
      fun l hl => (h1 l hl).1, hline _ _ (count_tagged relay).2.1 hr,
      fun l hl => (h2 l hl).1, hline _ _ (count_tagged admin).2.2.1 ha,
      fun l hl => (h3 l hl).1, hline _ _ (count_tagged hostname).2.2.2 hh,
      fun l hl => (h4 l hl).1, ?_⟩
    simp
  · simp [fillLines]

/-- No filled template looks like one with other values of one line. -/
theorem fill_inj {source relay admin hostname source' relay' admin' hostname' : Text}
    (hs : '\n' ∉ source) (hr : '\n' ∉ relay) (ha : '\n' ∉ admin) (hh : '\n' ∉ hostname)
    (h : fill source' relay' admin' hostname' = fill source relay admin hostname) :
    source' = source ∧ relay' = relay ∧ admin' = admin ∧ hostname' = hostname := by
  have hzero : source'.count '\n' + relay'.count '\n' + admin'.count '\n' +
      hostname'.count '\n' = 0 := by
    obtain ⟨n, hn⟩ := count_around (gap 0 20) (gap 21 1) (gap 23 3) (gap 27 8) (gap 36 97 ++ [[]])
    have hc := congrArg (List.count '\n') h
    rw [fill, fill, fillLines, fillLines, hn, hn] at hc
    rw [← List.count_eq_zero] at hs hr ha hh
    omega
  have hs' : '\n' ∉ source' := List.count_eq_zero.mp (by omega)
  have hr' : '\n' ∉ relay' := List.count_eq_zero.mp (by omega)
  have ha' : '\n' ∉ admin' := List.count_eq_zero.mp (by omega)
  have hh' : '\n' ∉ hostname' := List.count_eq_zero.mp (by omega)
  have hl := splitOn_fill hs hr ha hh
  rw [← h, splitOn_fill hs' hr' ha' hh'] at hl
  simp only [fillLines, List.append_cancel_left_eq, List.cons.injEq, and_true] at hl
  exact ⟨elementLine_injective _ _ hl.1, elementLine_injective _ _ hl.2.1,
    elementLine_injective _ _ hl.2.2.1, elementLine_injective _ _ hl.2.2.2⟩

end Icecast

/-!
# Built-in machines

The listings of the built-in machines, with inputs worth running them on and, for some of them, a
state diagram of its own in JSON.
-/

namespace TapeMachine.Catalog

/-- The characters of a text, with a line feed behind each of its lines. -/
def charsOf (lines : List String) : List Char := lines.flatMap fun line => line.toList ++ ['\n']

structure Source where
  /-- The lines of the listing. -/
  lines : List String
  samples : List String
  /-- The lines of the diagram. -/
  diagram : Option (List String) := none

/-- The characters of the listing. -/
def Source.chars (s : Source) : List Char := charsOf s.lines

/-- Recognizes as many zeros followed by as many ones. -/
def matchZerosOnes : Source where
  lines :=
    [ "# Recognizes \x7b 0^n 1^n | n >= 0 \x7d.",
      "# Crosses off the leftmost 0 (X) and the leftmost unmatched 1 (Y) in pairs.",
      "name: Match 0^n1^n",
      "input: [0, 1]",
      "tape: [0, 1, X, Y, _]",
      "start: q0",
      "accept: [halt]",
      "reject: [reject]",
      "rules:",
      "  q0:",
      "    0 -> X, R, q1",
      "    X, R, q0",
      "    Y, R, q3",
      "    _, N, halt",
      "    1, N, reject",
      "  q1:",
      "    0, R, q1",
      "    Y, R, q1",
      "    1 -> Y, L, q2",
      "    _, N, reject",
      "  q2:",
      "    0, L, q2",
      "    Y, L, q2",
      "    X, R, q0",
      "  q3:",
      "    Y, R, q3",
      "    _, N, halt",
      "    X, N, reject",
      "    0, N, reject",
      "    1, N, reject",
      "  halt:",
      "  reject:" ]
  samples := ["000111", "0011", "0110", ""]

/-- Appends a one to a block of ones. -/
def unaryIncrement : Source where
  lines :=
    [ "# Appends one 1 to a block of 1s. There is no accepting state: the machine",
      "# simply stops once the new 1 is written.",
      "name: Unary increment",
      "input: [1]",
      "start: scan",
      "rules:",
      "  scan:",
      "    1 -> 1, R, scan",
      "    _ -> 1, S, done",
      "  done:" ]
  samples := ["111", ""]

/-- Recognizes an even number of ones. -/
def evenOnes : Source where
  lines :=
    [ "name: Even number of 1s",
      "input: [1]",
      "states: [even, odd, accept, reject]",
      "start: even",
      "accept: [accept]",
      "reject: [reject]",
      "rules:",
      "  even:",
      "    1 -> 1, R, odd",
      "    _ -> _, S, accept",
      "  odd:",
      "    1, R, even",
      "    _ -> _, N, reject" ]
  samples := ["11", "1", ""]
  diagram := some
    [ "\x7b",
      "  \"kind\": \"dfa\",",
      "  \"states\": [\"even\", \"odd\"],",
      "  \"alphabet\": [\"1\"],",
      "  \"start\": \"even\",",
      "  \"accept\": [\"even\"],",
      "  \"edges\": [",
      "    \x7b \"from\": \"even\", \"symbol\": \"1\", \"to\": \"odd\" \x7d,",
      "    \x7b \"from\": \"odd\", \"symbol\": \"1\", \"to\": \"even\" \x7d",
      "  ]",
      "\x7d" ]

/-- Recognizes palindromes. -/
def binaryPalindrome : Source where
  lines :=
    [ "# Erases the first symbol, carries it to the far end and compares it with the",
      "# last symbol, which is erased too. Repeats until nothing is left.",
      "name: Binary palindrome",
      "input: [0, 1]",
      "start: pick",
      "accept: [accept]",
      "reject: [reject]",
      "rules:",
      "  pick:",
      "    0 -> _, R, carry0",
      "    1 -> _, R, carry1",
      "    _, S, accept",
      "  carry0:",
      "    0, R, carry0",
      "    1, R, carry0",
      "    _, L, check0",
      "  carry1:",
      "    0, R, carry1",
      "    1, R, carry1",
      "    _, L, check1",
      "  check0:",
      "    0 -> _, L, back",
      "    1, S, reject",
      "    _, S, accept",
      "  check1:",
      "    1 -> _, L, back",
      "    0, S, reject",
      "    _, S, accept",
      "  back:",
      "    0, L, back",
      "    1, L, back",
      "    _, R, pick" ]
  samples := ["10101", "1011", ""]

/-- Recognizes words that contain `101`. -/
def contains101 : Source where
  lines :=
    [ "# Guesses where an occurrence of 101 starts. The scanning branch rejects when it",
      "# reaches the end of the input; a wrong guess simply dies.",
      "name: Contains 101",
      "kind: nondeterministic",
      "input: [0, 1]",
      "start: scan",
      "accept: [accept]",
      "reject: [reject]",
      "rules:",
      "  scan:",
      "    0, R, scan",
      "    1, R, scan",
      "    1, R, one",
      "    _, S, reject",
      "  one:",
      "    0, R, zero",
      "  zero:",
      "    1, R, accept" ]
  samples := ["0011010", "1001"]
  diagram := some
    [ "\x7b",
      "  \"kind\": \"nfa\",",
      "  \"states\": [\"scan\", \"one\", \"zero\", \"found\"],",
      "  \"alphabet\": [\"0\", \"1\"],",
      "  \"start\": \"scan\",",
      "  \"accept\": [\"found\"],",
      "  \"edges\": [",
      "    \x7b \"from\": \"scan\", \"symbol\": \"0\", \"to\": \"scan\" \x7d,",
      "    \x7b \"from\": \"scan\", \"symbol\": \"1\", \"to\": \"scan\" \x7d,",
      "    \x7b \"from\": \"scan\", \"symbol\": \"1\", \"to\": \"one\" \x7d,",
      "    \x7b \"from\": \"one\", \"symbol\": \"0\", \"to\": \"zero\" \x7d,",
      "    \x7b \"from\": \"zero\", \"symbol\": \"1\", \"to\": \"found\" \x7d,",
      "    \x7b \"from\": \"found\", \"symbol\": \"0\", \"to\": \"found\" \x7d,",
      "    \x7b \"from\": \"found\", \"symbol\": \"1\", \"to\": \"found\" \x7d",
      "  ]",
      "\x7d" ]

/-- Never halts. -/
def loopForever : Source where
  lines :=
    [ "# Never halts: walks right across the input, then stays on the first blank forever.",
      "name: Loop forever",
      "input: [1]",
      "start: loop",
      "rules:",
      "  loop:",
      "    1, R, loop",
      "    _, S, loop" ]
  samples := ["", "11"]

def sources : List Source :=
  [matchZerosOnes, unaryIncrement, evenOnes, binaryPalindrome, contains101, loopForever]

end TapeMachine.Catalog

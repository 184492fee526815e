namespace Qualify

/-- Weights, costs and gains are words whose sums stop at the largest word. -/
abbrev Weight := UInt64

namespace Weight

def cap : Weight := 18446744073709551615

def plus (a b : Weight) : Weight := if a + b < a then cap else a + b

def total (ws : List Weight) : Weight := ws.foldl plus 0

end Weight

end Qualify

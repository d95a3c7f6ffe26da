import TwilightDispatch.Metrics
import TwilightDispatch.Created
import TwilightDispatch.Emojis
import TwilightDispatch.Batches
import TwilightDispatch.Retry
import TwilightDispatch.ReadBack
import TwilightDispatch.EventOrder
import TwilightDispatch.Forwarded
import TwilightDispatch.Enabled
import TwilightDispatch.Shutdown
import TwilightDispatch.SessionMap
import TwilightDispatch.Incoming
import TwilightDispatch.Joins
import TwilightDispatch.BotMember
import TwilightDispatch.TimeToLive
import TwilightDispatch.Timestamp
import TwilightDispatch.Interrupted
import TwilightDispatch.Modify
import TwilightDispatch.Prompt
import TwilightDispatch.Isolated
import TwilightDispatch.Queue
import TwilightDispatch.Refresh
import TwilightDispatch.OneType
import TwilightDispatch.Redelivery
import TwilightDispatch.Commands
import TwilightDispatch.Notices
import TwilightDispatch.Unfailing
import TwilightDispatch.Topology
import TwilightDispatch.Gauges
